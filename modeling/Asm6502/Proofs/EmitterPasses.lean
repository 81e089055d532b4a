import Asm6502.Proofs.CommandTrees
import Asm6502.Proofs.OperationPasses

/-!
# Emitter programs in two passes

A tree of operations, run alike in both passes: labelled bodies in owner scopes, and operations that
stand for several instructions. What holds of single operations and is kept when operations are put
together holds of the tree. So it is with the pins that discovery leaves, each of which is the mode of an
instruction of the tree, and with the final pass, which follows discovery through the tree.

* `Composed`: properties that are kept when operations are put together.
* `Opened`: the same for trees that first declare where the program lies.
* `PinsItsModes`: no pins but those of the instructions.
* `Follows`: the final pass comes out abreast of discovery, or fails with a deferred fault.
* `emitter_passes_agree`: no other faults in the final pass, and no difference between the passes.
-/

namespace Asm6502

open Asm6502.Action (Moves)

-- ── Operations put together ─────────────────────────────────────────────────

namespace Command

/-- Operations that do in both passes what they are told. -/
def isRepeatable : Command → Bool
  | .emit _ _ | .nop _ | .setCells _ _ _ | .setAddress _ _ _ | .copyCell _ _ _ | .call _ _
  | .subroutine _ _ | .withOwner _ _ => true
  | c => c.isData

/-- The parts of a repeatable operation without a body: instructions, or data. -/
theorem isData_of_mem_parts {c : Command} (hleaf : c.isLeaf = true) (hc : c.isRepeatable = true)
    {part : Command} (h : part ∈ c.parts) :
    (∃ m args, part = .emit m args) ∨ part.isData = true := by
  rcases mem_parts h with hemit | ⟨hcomposite, rfl⟩
  · exact Or.inl hemit
  · cases part with
    | emit m args => exact Or.inl ⟨m, args, rfl⟩
    | nop _ | setCells _ _ _ | setAddress _ _ _ | copyCell _ _ _ | call _ _ => exact nomatch hcomposite
    | subroutine _ _ | withOwner _ _ => exact nomatch hleaf
    | _ => exact Or.inr hc

end Command

/-- A property of actions and of the moments in which they work, for every session to start from. It holds
    of instructions and data, and it is kept when actions are put together. -/
structure Composed (render : Nat → Assembly Unit)
    (Q : Assembly Unit → (Session → List Moment) → Prop) : Prop where
  nothing : Q (pure ()) (fun _ => [])
  emit : ∀ owner m args, Q ((Command.emit m args).perform render)
    (Command.sequence render owner [.emit m args])
  data : ∀ owner c, c.isData = true → Q (c.perform render) (Command.sequence render owner [c])
  sequence : ∀ {first second : Assembly Unit} {ms ms' : Session → List Moment}, Q first ms →
    Q second ms' → Q (do first; second) (fun s => ms s ++ Command.following (first.exec s) ms')
  scope : ∀ {body : Assembly Unit} {ms : Session → List Moment} owner, Q body ms →
    Q (Assembly.withOwner owner body) (fun s => ms { s with scopes := owner :: s.scopes })

namespace Composed

open Command (isRepeatable)

variable {render : Nat → Assembly Unit} {Q : Assembly Unit → (Session → List Moment) → Prop}

/-- Single operations one after another. -/
theorem singles (h : Composed render Q) (owner : String) {commands : List Command}
    (hc : ∀ c ∈ commands, (∃ m args, c = .emit m args) ∨ c.isData = true) :
    Q (Command.runAll render commands) (Command.sequence render owner commands) := by
  induction commands with
  | nil => exact h.nothing
  | cons c rest ih =>
      have hfirst : Q (c.perform render) (Command.sequence render owner [c]) := by
        rcases hc c (List.mem_cons_self ..) with ⟨m, args, rfl⟩ | hdata
        · exact h.emit owner m args
        · exact h.data owner c hdata
      have hrest := ih (fun c' hc' => hc c' (List.mem_cons_of_mem _ hc'))
      have hall := h.sequence hfirst hrest
      rw [← Command.runAll_cons] at hall
      have hmoments : Command.sequence render owner (c :: rest) = fun s =>
          Command.sequence render owner [c] s ++
            Command.following ((c.perform render).exec s) (Command.sequence render owner rest) := by
        funext s
        rw [Command.sequence_single, Command.perform, Command.following_answering]
        rfl
      rw [hmoments]
      exact hall

mutual

/-- A property of operations that is kept when they are put together holds of their trees. -/
theorem run (h : Composed render Q) (owner : String) (c : Command) (hc : c.every isRepeatable = true) :
    Q (c.perform render) (c.moments render owner) := by
  cases c with
  | withOwner inner body =>
      rw [Command.perform_withOwner]
      exact h.scope inner (h.runAll inner body hc)
  | subroutine name body =>
      rw [Command.perform_subroutine]
      -- three in a row, the first and the last of them single
      have hall := h.sequence (h.data owner (.label name none) rfl)
        (h.sequence (h.runAll owner body hc) (h.emit owner .rts []))
      simp only [Command.perform, Command.run, Command.following_answering] at hall ⊢
      exact hall
  | onlyIn _ _ | ifDefined _ _ | attempt _ | traced _ _ => exact nomatch hc
  | _ =>
      rw [← Command.runAll_parts]
      exact h.singles owner (fun _ => Command.isData_of_mem_parts rfl hc)

theorem runAll (h : Composed render Q) (owner : String) (commands : List Command)
    (hc : Command.everyOf isRepeatable commands = true) :
    Q (Command.runAll render commands) (Command.momentsOf render owner commands) := by
  cases commands with
  | nil => exact h.nothing
  | cons c rest =>
      obtain ⟨hfirst, hothers⟩ := Bool.and_eq_true_iff.mp hc
      have hall := h.sequence (h.run owner c hfirst) (h.runAll owner rest hothers)
      rw [← Command.runAll_cons] at hall
      simp only [Command.perform, Command.following_answering] at hall
      exact hall

end

end Composed

-- ── The pins of discovery ───────────────────────────────────────────────────

namespace Moment

/-- Whether an instruction is emitted. -/
def isEmit (m : Moment) : Bool :=
  match m.command with
  | .emit _ _ => true
  | _ => false

/-- Where the cursor stands at first. -/
def place (m : Moment) : Number := m.before.cursor.position

/-- The mode in which the instruction is encoded. -/
def mode? (m : Moment) : Option Mode :=
  match m.command with
  | .emit mnemonic args => m.before.modeOf mnemonic args
  | _ => none

/-- An instruction finds no pin where it starts, or a pin of its own mode. -/
def MeetsOwnPin (pins : Table Number Mode) (m : Moment) : Prop :=
  m.isEmit = true → ∀ mode, pins.find? m.place = some mode → m.mode? = some mode

end Moment

/-- Where the instructions among some moments start. -/
def emitStarts (ms : List Moment) : List Number := (ms.filter (·.isEmit)).map (·.place)

/-- Every pin that an action leaves was there before, or it is the mode of an instruction that started
    there. -/
def PinsItsModes (action : Assembly Unit) (ms : Session → List Moment) : Prop :=
  ∀ s t, action.exec s = (.ok (), t) → ∀ k mode, t.symbols.pins.find? k = some mode →
    s.symbols.pins.find? k = some mode ∨
      ∃ m ∈ ms s, m.isEmit = true ∧ m.place = k ∧ m.mode? = some mode

theorem composed_pinsItsModes (render : Nat → Assembly Unit) : Composed render PinsItsModes where
  nothing := by
    intro s t h k mode hk
    cases h
    exact Or.inl hk
  emit owner mnemonic args := by
    intro s t h k mode hk
    obtain ⟨_, hrun⟩ := Action.exec_answering_eq_ok h
    obtain ⟨n, hemit⟩ := Action.exec_answering_eq_ok hrun
    rcases pins_of_emit hemit hk with hold | ⟨hplace, hmode⟩
    · exact Or.inl hold
    · exact Or.inr ⟨⟨owner, .emit mnemonic args, s, _⟩, List.mem_cons_self .., rfl, hplace, hmode⟩
  data owner c hc := by
    intro s t h k mode hk
    have hsame : Source.SamePins s t :=
      (Moves.answering followed_samePins.refl followed_samePins.trans
        (followed_samePins.run render hc) _).of_exec h
    rw [hsame] at hk
    exact Or.inl hk
  sequence := by
    intro first second ms ms' hfirst hsecond s t h k mode hk
    obtain ⟨_, u, hu, ht⟩ := Action.exec_bind_eq_ok h
    simp only [hu, Command.following]
    rcases hsecond u t ht k mode hk with hmid | ⟨m, hm, hpin⟩
    · rcases hfirst s u hu k mode hmid with hold | ⟨m, hm, hpin⟩
      · exact Or.inl hold
      · exact Or.inr ⟨m, List.mem_append_left _ hm, hpin⟩
    · exact Or.inr ⟨m, List.mem_append_right _ hm, hpin⟩
  scope := by
    intro body ms owner hbody s t h k mode hk
    obtain ⟨u, hu, rfl⟩ := Assembly.exec_withOwner_eq_ok h
    exact hbody _ _ hu k mode hk

/-- Where no two instructions start at one place, each meets its own pin. -/
theorem meetsOwnPin_of_nodup {action : Assembly Unit} {ms : Session → List Moment}
    (h : PinsItsModes action ms) {s last : Session} (hpins : s.symbols.pins = .empty)
    (hrun : action.exec s = (.ok (), last)) (hstarts : (emitStarts (ms s)).Nodup) :
    ∀ m ∈ ms s, m.MeetsOwnPin last.symbols.pins := by
  intro m hm hemit mode hmode
  rcases h s last hrun _ mode hmode with hold | ⟨m', hm', hemit', hplace, hmode'⟩
  · rw [hpins] at hold
    exact nomatch hold
  · -- who left the pin started here too, and only one instruction does
    have hsame : m' = m := List.inj_on_of_nodup_map hstarts
      (List.mem_filter.mpr ⟨hm', hemit'⟩) (List.mem_filter.mpr ⟨hm, hemit⟩) hplace
    rw [← hsame]
    exact hmode'

-- ── The passes of a tree ────────────────────────────────────────────────────

/-- Scopes are of no concern to what lies ahead. -/
theorem Session.Precedes.of_scopes (s : Session) (scopes : List String) :
    s.Precedes { s with scopes } :=
  .of_samePins ⟨rfl, rfl, rfl, fun _ _ _ h => h, List.prefix_refl _, fun _ => rfl,
    List.suffix_refl _, fun h => h⟩ rfl

/-- Both passes open a scope, or close one. -/
theorem Abreast.of_scopes {last d f : Session} (h : Abreast last d f) {scopes scopes' : List String}
    (hscopes : scopes' = scopes) : Abreast last { d with scopes } { f with scopes := scopes' } :=
  { h with scopes := hscopes }

/-- Through an action whose instructions meet their own pins, the final pass follows discovery from
    sessions in `Pre`: it comes out abreast, or it fails with a deferred fault. -/
def Follows (last : Session) (Pre : Session → Session → Prop) (action : Assembly Unit)
    (ms : Session → List Moment) : Prop :=
  ∀ d f d', Pre d f → action.exec d = (.ok (), d') → d'.Precedes last →
    (∀ m ∈ ms d, m.MeetsOwnPin last.symbols.pins) →
    (∃ f', action.exec f = (.ok (), f') ∧ Abreast last d' f') ∨
      ∃ fault f', action.exec f = (.error fault, f') ∧ fault.isDeferred = true

/-- An action that does not leave its way, and through which the final pass stays abreast. -/
structure Repeats (last : Session) (action : Assembly Unit) (ms : Session → List Moment) : Prop where
  precedes : Moves Session.Precedes action
  follows : Follows last (Abreast last) action ms

namespace Follows

variable {last : Session} {Pre : Session → Session → Prop} {first second body : Assembly Unit}
variable {ms ms' : Session → List Moment}

theorem sequence (hfirst : Follows last Pre first ms) (hsecond : Repeats last second ms') :
    Follows last Pre (do first; second) (fun s => ms s ++ Command.following (first.exec s) ms') := by
  intro d f d' h hd hahead hown
  obtain ⟨_, u, hu, hd'⟩ := Action.exec_bind_eq_ok hd
  simp only [hu, Command.following] at hown
  -- where the first action ends is still on the way
  have hback : u.Precedes last := (hsecond.precedes.of_exec hd').trans _ _ _ hahead
  rcases hfirst d f u h hu hback (fun m hm => hown m (List.mem_append_left _ hm)) with
    ⟨f', hf', hmid⟩ | ⟨fault, f', hf', hdeferred⟩
  · rw [Action.exec_bind_of_ok hf']
    exact hsecond.follows u f' d' hmid hd' hahead (fun m hm => hown m (List.mem_append_right _ hm))
  · exact Or.inr ⟨fault, f', Action.exec_bind_of_error hf', hdeferred⟩

theorem scope (owner : String) (hopen : ∀ d f, Pre d f →
      Pre { d with scopes := owner :: d.scopes } { f with scopes := owner :: f.scopes })
    (hbody : Follows last Pre body ms) :
    Follows last Pre (Assembly.withOwner owner body)
      (fun s => ms { s with scopes := owner :: s.scopes }) := by
  intro d f d' h hd hahead hown
  obtain ⟨u, hu, rfl⟩ := Assembly.exec_withOwner_eq_ok hd
  have hback := (Session.Precedes.of_scopes u _).trans _ _ _ hahead
  rw [Assembly.exec_withOwner]
  rcases hbody _ _ _ (hopen d f h) hu hback hown with
    ⟨f', hf', hend⟩ | ⟨fault, f', hf', hdeferred⟩
  · rw [hf']
    exact Or.inl ⟨_, rfl, hend.of_scopes (congrArg List.tail hend.scopes)⟩
  · rw [hf']
    exact Or.inr ⟨fault, _, rfl, hdeferred⟩

end Follows

theorem composed_repeats (render : Nat → Assembly Unit) (last : Session) :
    Composed render (Repeats last) where
  nothing := by
    refine ⟨Moves.pure .refl _, ?_⟩
    intro d f d' h hd _ _
    cases hd
    exact Or.inl ⟨f, rfl, h⟩
  emit owner m args := by
    constructor
    · exact Moves.answering .refl .trans
        (Moves.answering .refl .trans (followed_precedes.emit m args) _) _
    · intro d f d' h hd hahead hown
      obtain ⟨_, hrun⟩ := Action.exec_answering_eq_ok hd
      obtain ⟨n, hemit⟩ := Action.exec_answering_eq_ok hrun
      have hmeets := hown _ (List.mem_cons_self ..) rfl
      rw [Command.exec_perform, Command.run, Action.exec_answering]
      rcases retrace_emit h hemit hahead hmeets with ⟨n', f', hf, hend⟩ | ⟨fault, f', hf, hdeferred⟩
      · exact Or.inl ⟨f', by rw [hf]; rfl, hend⟩
      · exact Or.inr ⟨fault, f', by rw [hf]; rfl, hdeferred⟩
  data owner c hc := by
    constructor
    · exact Moves.answering .refl .trans (followed_precedes.toFollowedByData.run render hc) _
    · intro d f d' h hd hahead _
      have hretraces : Retraces last (c.perform render) (c.perform render) :=
        (retrace_data render hc).answering _
      rcases hretraces.coupled.of_ok h hd hahead.toLeads with ⟨_, f', hf, hend⟩ | hdeferred
      · exact Or.inl ⟨f', hf, hend⟩
      · exact Or.inr hdeferred
  sequence hfirst hsecond :=
    ⟨Moves.bind .trans hfirst.precedes (fun _ => hsecond.precedes), hfirst.follows.sequence hsecond⟩
  scope := by
    intro body ms owner hbody
    constructor
    · intro s
      rw [Assembly.exec_withOwner]
      exact (Session.Precedes.of_scopes s _).trans _ _ _
        ((hbody.precedes _).trans _ _ _ (Session.Precedes.of_scopes _ _))
    · exact hbody.follows.scope owner (fun d f h => h.of_scopes (congrArg (owner :: ·) h.scopes))

-- ── Where the passes begin ──────────────────────────────────────────────────

namespace Command

mutual

/-- Trees of repeatable operations, of which the very first may declare where the program lies. -/
def opens : Command → Bool
  | .setup _ => true
  | .withOwner _ body => opensOf body
  | c => c.every isRepeatable

def opensOf : List Command → Bool
  | [] => true
  | c :: rest => c.opens && everyOf isRepeatable rest

end

end Command

/-- Properties that hold of trees of which the very first operation may declare where the program lies,
    and of what follows it. -/
structure Opened (render : Nat → Assembly Unit)
    (Q First : Assembly Unit → (Session → List Moment) → Prop) : Prop extends Composed render Q where
  weaken : ∀ {action ms}, Q action ms → First action ms
  setup : ∀ owner options, First ((Command.setup options).perform render)
    (Command.sequence render owner [.setup options])
  before : ∀ {first second ms ms'}, First first ms → Q second ms' →
    First (do first; second) (fun s => ms s ++ Command.following (first.exec s) ms')
  within : ∀ {body ms} owner, First body ms →
    First (Assembly.withOwner owner body) (fun s => ms { s with scopes := owner :: s.scopes })

namespace Opened

variable {render : Nat → Assembly Unit} {Q First : Assembly Unit → (Session → List Moment) → Prop}

mutual

theorem opening (h : Opened render Q First) (owner : String) (c : Command) (hc : c.opens = true) :
    First (c.perform render) (c.moments render owner) := by
  cases c with
  | setup options => exact h.setup owner options
  | withOwner inner body =>
      rw [Command.perform_withOwner]
      exact h.within inner (h.openingOf inner body hc)
  | _ => exact h.weaken (h.toComposed.run owner _ hc)

theorem openingOf (h : Opened render Q First) (owner : String) (commands : List Command)
    (hc : Command.opensOf commands = true) :
    First (Command.runAll render commands) (Command.momentsOf render owner commands) := by
  cases commands with
  | nil => exact h.weaken h.nothing
  | cons c rest =>
      obtain ⟨hfirst, hothers⟩ := Bool.and_eq_true_iff.mp hc
      have hall := h.before (h.opening owner c hfirst) (h.toComposed.runAll owner rest hothers)
      rw [← Command.runAll_cons] at hall
      simp only [Command.perform, Command.following_answering] at hall
      exact hall

end

end Opened

/-- The session `d` is new and `f` begins the final pass after a discovery that ends in `last`, but for
    the scopes opened since. -/
structure Poised (last d f : Session) : Prop where
  new : d.IsNew
  standing : d.cursor.position = .ofAddress d.cursor.start
  outerOwner : last.outerOwner = d.outerOwner
  turned : f = { last.turned with scopes := d.scopes }

namespace Poised

variable {last d f : Session}

theorem opened (h : Poised last d f) (owner : String) :
    Poised last { d with scopes := owner :: d.scopes } { f with scopes := owner :: f.scopes } where
  new := { h.new with }
  standing := h.standing
  outerOwner := h.outerOwner
  turned := by rw [h.turned]

/-- Where discovery keeps its start, the passes begin abreast. -/
theorem abreast (h : Poised last d f) (hleads : d.Leads last) : Abreast last d f := by
  have hback := (Session.Precedes.of_scopes { d with scopes := last.scopes } d.scopes).toLeads
  have hbegin := Session.abreast_turned (s := { d with scopes := last.scopes }) { h.new with }
    h.standing (hback.trans _ _ _ hleads) ⟨rfl, h.outerOwner⟩
  rw [h.turned]
  exact hbegin.of_scopes rfl

/-- The first operation may move the start: both passes then begin at the new one. -/
theorem setup (h : Poised last d f) {options : Assembly.Setup} {d' : Session}
    (hd : (Assembly.setup options).exec d = (.ok (), d')) (hleads : d'.Leads last) :
    ∃ f', (Assembly.setup options).exec f = (.ok (), f') ∧ Abreast last d' f' := by
  obtain ⟨start, hrun⟩ := Assembly.exec_setup_of_ok hd
  obtain ⟨_, _, _, hsame⟩ := hrun d
  obtain ⟨_, _, _, hf⟩ := hrun f
  obtain ⟨-, rfl⟩ := Prod.mk.inj (hd.symm.trans hsame)
  refine ⟨_, hf, ?_⟩
  -- discovery could as well have begun at the start that was declared
  have hpoised : Poised last { d with cursor := ⟨start, .ofAddress start, d.cursor.registers⟩ } f :=
    ⟨{ h.new with }, rfl, h.outerOwner, h.turned⟩
  have hleads' : Session.Leads { d with cursor := ⟨start, .ofAddress start, d.cursor.registers⟩ } last :=
    { hleads with }
  have hmoved := (hpoised.abreast hleads').moved (options.entry.getD options.start)
  have hregisters : f.cursor.registers = d.cursor.registers := congrArg (·.registers) hmoved.cursor
  exact { hmoved with cursor := by rw [hregisters] }

end Poised

/-- A declaration changes the cursor, the exported range and the entry point only. -/
theorem exec_setup_of_perform {render : Nat → Assembly Unit} {options : Assembly.Setup} {s t : Session}
    (h : ((Command.setup options).perform render).exec s = (.ok (), t)) :
    (Assembly.setup options).exec s = (.ok (), t) ∧ ∃ cursor memory entrypoint,
      t = { s with cursor, memory, entrypoint } := by
  obtain ⟨_, hrun⟩ := Action.exec_answering_eq_ok h
  obtain ⟨_, hsetup⟩ := Action.exec_answering_eq_ok hrun
  obtain ⟨start, hall⟩ := Assembly.exec_setup_of_ok hsetup
  obtain ⟨_, _, _, hs⟩ := hall s
  obtain ⟨-, rfl⟩ := Prod.mk.inj (hsetup.symm.trans hs)
  exact ⟨hsetup, _, _, _, rfl⟩

theorem opened_pinsItsModes (render : Nat → Assembly Unit) :
    Opened render PinsItsModes PinsItsModes where
  toComposed := composed_pinsItsModes render
  weaken h := h
  setup owner options := by
    intro s t h k mode hk
    obtain ⟨-, _, _, _, rfl⟩ := exec_setup_of_perform h
    exact Or.inl hk
  before := (composed_pinsItsModes render).sequence
  within := (composed_pinsItsModes render).scope

/-- A completed action that stays in its pass, and through which the final pass comes abreast from its
    beginning. -/
structure Begins (last : Session) (action : Assembly Unit) (ms : Session → List Moment) : Prop where
  samePass : ∀ s t, action.exec s = (.ok (), t) → t.pass = s.pass
  follows : Follows last (Poised last) action ms

theorem opened_begins (render : Nat → Assembly Unit) (last : Session) :
    Opened render (Repeats last) (Begins last) where
  toComposed := composed_repeats render last
  weaken := by
    intro action ms h
    refine ⟨fun s t hrun => (h.precedes.of_exec hrun).pass, ?_⟩
    intro d f d' hpoised hd hahead hown
    have hback := (h.precedes.of_exec hd).trans _ _ _ hahead
    exact h.follows d f d' (hpoised.abreast hback.toLeads) hd hahead hown
  setup owner options := by
    constructor
    · intro s t h
      obtain ⟨-, _, _, _, rfl⟩ := exec_setup_of_perform h
      rfl
    · intro d f d' hpoised hd hahead _
      obtain ⟨f', hf, hend⟩ := hpoised.setup (exec_setup_of_perform hd).1 hahead.toLeads
      refine Or.inl ⟨f', ?_, hend⟩
      rw [Command.exec_perform, Command.run, Action.exec_answering, hf]
      rfl
  before := by
    intro first second ms ms' hfirst hsecond
    refine ⟨?_, hfirst.follows.sequence hsecond⟩
    intro s t h
    obtain ⟨_, u, hu, ht⟩ := Action.exec_bind_eq_ok h
    exact (hsecond.precedes.of_exec ht).pass.trans (hfirst.samePass s u hu)
  within := by
    intro body ms owner hbody
    refine ⟨?_, hbody.follows.scope owner (fun _ _ h => h.opened owner)⟩
    intro s t h
    obtain ⟨u, hu, rfl⟩ := Assembly.exec_withOwner_eq_ok h
    exact hbody.samePass { s with scopes := owner :: s.scopes } u hu

/-- A tree of operations, the first of which may declare where the program lies. If discovery completes, at
    a number and without two instructions that start at one place, then the final pass fails with a
    deferred fault only: never for owners, labels defined twice, addresses, forms of instructions or
    arguments. And the passes never differ. -/
theorem emitter_passes_agree {catalogue : Catalogue} {commands : List Command} {options : Options}
    {s last : Session} (htree : Command.opensOf commands = true)
    (hfresh : ∀ c, options.cursor = some c → c.position = .ofAddress c.start)
    (hcreate : Session.create options.withStart = .ok s)
    (hdiscovery : (catalogue.runAll commands).exec s = (.ok (), last))
    (hstarts : (emitStarts (Command.momentsOf (catalogue.render catalogue.nestingLimit) s.owner
      commands s)).Nodup)
    (hend : last.cursor.position ≠ .nan) :
    (∀ fault f, (catalogue.runAll commands).exec last.turned = (.error fault, f) →
      fault.isDeferred = true) ∧
    ∀ differences, (compile (catalogue.runAll commands) options).1 ≠
      .error (.passMismatch differences) := by
  have hnew := Session.isNew_of_create hcreate
  have hbegins := (opened_begins (catalogue.render catalogue.nestingLimit) last).openingOf s.owner
    commands htree
  have hown := meetsOwnPin_of_nodup ((opened_pinsItsModes _).openingOf s.owner commands htree)
    hnew.pins hdiscovery hstarts
  have hpass : last.pass = .discovery := (hbegins.samePass s last hdiscovery).trans hnew.pass
  have hscopes : s.SameScopes last :=
    (followed_sameScopes.runAll (followed_sameScopes.render catalogue _) commands).of_exec hdiscovery
  have hpoised : Poised last s last.turned := by
    refine ⟨hnew, Session.cursor_of_create hfresh hcreate, hscopes.outerOwner, ?_⟩
    obtain ⟨journal, hturned⟩ := Session.turned_eq hpass
    rw [hturned, ← hscopes.scopes]
  have hrun := hbegins.follows s last.turned last hpoised hdiscovery (.refl last) hown
  constructor
  · intro fault f hf
    rcases hrun with ⟨f', hf', -⟩ | ⟨fault', f', hf', hdeferred⟩
    · exact nomatch congrArg Prod.fst (hf.symm.trans hf')
    · rw [Except.error.inj (congrArg Prod.fst (hf.symm.trans hf'))]
      exact hdeferred
  · intro differences
    rw [fst_compile hcreate]
    rcases hrun with ⟨f, hf, h⟩ | ⟨fault, f, hf, hdeferred⟩
    · rw [Assembly.bothPasses_of_ok hdiscovery hpass hf, h.passDifferences hend]
      exact fun hno => nomatch hno
    · rw [Assembly.bothPasses_of_final_error hdiscovery hpass hf]
      rintro hno
      rw [Except.error.inj hno] at hdeferred
      exact nomatch hdeferred

/-- A program declared in the scope that holds it, with operands that are known only further down and with
    data of another owner. -/
def scopedProgram : List Command :=
  [.withOwner "game"
    [.setup ⟨0x2000, none, some 0x2010⟩, .entrypoint,
      .setAddress (.name "pointer") (.name "greeting") {},
      .emit .beq [.operand (.name "done")],
      .subroutine "done" [.copyCell (.name "score") (.number 2) {}, .nop (some 2)],
      .withOwner "data"
        [.declare "score" (some 7) {}, .fill 2 [], .label "pointer" none, .word [.name "done"],
          .text "greeting" "HI"]],
    .emit .jmp [.operand (.name "done")]]

/-- The session at the end of the discovery of `scopedProgram`. -/
def scopedDiscovered : Session := ((Catalogue.runAll [] scopedProgram).exec Source.plainSession).2

theorem scoped_program_passes_agree :
    Command.opensOf scopedProgram = true ∧
    (Catalogue.runAll [] scopedProgram).exec Source.plainSession = (.ok (), scopedDiscovered) ∧
    emitStarts (Command.momentsOf (Catalogue.render [] (Catalogue.nestingLimit [])) "main" scopedProgram
      Source.plainSession) = [0x2010, 0x2012, 0x2015, 0x2017, 0x201A, 0x201C, 0x201F, 0x2022, 0x2023,
        0x2024, 0x202C] ∧
    scopedDiscovered.cursor.position ≠ .nan ∧
    (∀ fault f, (Catalogue.runAll [] scopedProgram).exec scopedDiscovered.turned = (.error fault, f) →
      fault.isDeferred = true) ∧
    ∀ differences, (compile (Catalogue.runAll [] scopedProgram) {}).1 ≠
      .error (.passMismatch differences) := by
  have htree : Command.opensOf scopedProgram = true := by decide
  have hdiscovery : (Catalogue.runAll [] scopedProgram).exec Source.plainSession =
      (.ok (), scopedDiscovered) := by
    refine Prod.ext ?_ rfl
    decide +kernel
  have hstarts : emitStarts (Command.momentsOf (Catalogue.render [] (Catalogue.nestingLimit [])) "main"
      scopedProgram Source.plainSession) = [0x2010, 0x2012, 0x2015, 0x2017, 0x201A, 0x201C, 0x201F,
        0x2022, 0x2023, 0x2024, 0x202C] := by decide +kernel
  have hend : scopedDiscovered.cursor.position ≠ .nan := by decide +kernel
  refine ⟨htree, hdiscovery, hstarts, hend, ?_⟩
  refine emitter_passes_agree htree (fun c hc => nomatch hc) Source.create_plain hdiscovery ?_ hend
  rw [show Source.plainSession.owner = "main" from rfl, hstarts]
  decide

end Asm6502
