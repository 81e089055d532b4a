import Mathlib.Data.List.Flatten
import Mathlib.Data.List.Perm.Subperm
import Asm6502.Proofs.LabelAgreement
import Asm6502.Proofs.Sweeps

/-!
# Where components lie

A component is emitted as one stretch of bytes, its own code, variables and routines, and its children
follow it. Its location is recorded when all of them are done. If each component occurs once in the tree
and moves the cursor by emitting only, then the recorded locations, each before those of its children, lie
one after another without a gap, and what lies in a location belongs to its component.

The induction is over the depth of the tree. Of what was emitted before, a component changes no owner, and
of the locations only those of its own tree. How deep components may be nested does not matter: a tree is no
deeper than there are components.

* `Catalogue.preorder`: the components of a tree, each before its children.
* `Location.Tile`: locations without gaps.
* `Catalogue.Rendered`: what emitting a tree does to a session.
* `Catalogue.render_eq_program`: trees do not reach the limit to the nesting.
* `components_tile_program`: where the components of a program lie.
-/

namespace Asm6502

open Asm6502.Action (Moves)

-- ── Trees of components ─────────────────────────────────────────────────────

/-- The serial numbers in the tree of a component, each before those of its children, with at most `depth`
    components inside each other. A number that is not in the catalogue stands for nothing. -/
def Catalogue.preorder (catalogue : Catalogue) : (depth : Nat) → (serial : Nat) → List Nat
  | 0, _ => []
  | depth + 1, serial =>
    match catalogue[serial]? with
    | some c => serial :: c.children.flatMap (catalogue.preorder depth)
    | none => []

/-- What a component consists of: its code, its variables and the bodies of its routines. -/
def Component.bodies (c : Component) : List (List Command) :=
  c.build :: c.storage :: c.routines.map Prod.snd

namespace Component

variable {catalogue : Catalogue} {c : Component}

theorem mem_bodies_of_routine {routine : String × List Command}
    (h : routine ∈ Text.sortBy Prod.fst c.routines) : routine.2 ∈ c.bodies := by
  refine List.mem_cons_of_mem _ (List.mem_cons_of_mem _ ?_)
  exact List.mem_map_of_mem ((Text.mem_sortBy _ _ _).mp h)

/-- If its bodies emit in place, a component is swept over by the current owner. -/
theorem sweeps_code (hbodies : ∀ body ∈ c.bodies, catalogue.EmitsInPlace body) (depth : Nat) :
    Moves Session.SweepsAsOwner (Command.runAll (catalogue.render depth) c.code) := by
  have hbody : ∀ body ∈ c.bodies,
      Moves Session.SweepsAsOwner (Command.runAll (catalogue.render depth) body) :=
    fun body h => (hbodies body h).moves depth
  have hbuild := hbody c.build (List.mem_cons_self ..)
  have hstorage := hbody c.storage (List.mem_cons_of_mem _ (List.mem_cons_self ..))
  rw [code, Command.runAll_append, Command.runAll_append, runAll_routines]
  refine Moves.bind .trans (Moves.bind .trans hbuild (fun _ => hstorage)) (fun _ => ?_)
  refine Moves.each_of_mem .refl .trans (fun routine h => ?_)
  exact .subroutine _ (hbody routine.2 (mem_bodies_of_routine h))

theorem scopeless_code (hbodies : ∀ body ∈ c.bodies, catalogue.EmitsInPlace body) :
    Command.everyOf (fun c => !c.opensScope) c.code = true := by
  have hbody : ∀ body ∈ c.bodies, ∀ command ∈ body, command.every (fun c => !c.opensScope) = true :=
    fun body h => Command.everyOf_iff.mp (hbodies body h).scopeless
  refine Command.everyOf_iff.mpr (fun command h => ?_)
  rcases List.mem_append.mp h with hcode | hroutine
  · rcases List.mem_append.mp hcode with hbuild | hstorage
    · exact hbody c.build (List.mem_cons_self ..) command hbuild
    · exact hbody c.storage (List.mem_cons_of_mem _ (List.mem_cons_self ..)) command hstorage
  · obtain ⟨routine, hmem, rfl⟩ := List.mem_map.mp hroutine
    exact Command.everyOf_iff.mpr (hbody routine.2 (mem_bodies_of_routine hmem))

end Component

-- ── Locations ───────────────────────────────────────────────────────────────

/-- The recorded locations are as before. -/
def Session.SameLocations (s t : Session) : Prop := t.journal.locations = s.journal.locations

namespace Session.SameLocations

theorem refl (s : Session) : s.SameLocations s := rfl

theorem trans (r s t : Session) (h : r.SameLocations s) (h' : s.SameLocations t) : r.SameLocations t :=
  Eq.trans h' h

theorem resolve (name : String) : Moves Session.SameLocations (Assembly.resolve name) :=
  Assembly.moves_resolve (fun s _ => refl s) name

theorem storeByte (address value : Number) :
    Moves Session.SameLocations (Assembly.storeByte address value) :=
  Assembly.moves_storeByte refl (fun s _ _ => refl s) address value

/-- Commands record no locations. -/
theorem commands : FollowedByCommands Session.SameLocations where
  refl := refl
  trans := trans
  resolve := resolve
  evaluate := Assembly.moves_evaluate refl trans resolve
  storeByte := storeByte
  emitByte := Assembly.moves_emitByte refl trans storeByte (fun _ => rfl)
  label := Assembly.moves_label (fun s _ => refl s)
  org _ _ := rfl
  pin _ _ := rfl
  countInstruction _ := rfl
  entrypoint _ := rfl
  cursor _ _ := rfl
  bounds _ _ _ := rfl
  pinAt _ _ _ := rfl
  marks _ _ _ := rfl
  entry _ _ := rfl
  record _ _ _ := rfl
  write _ _ _ _ := rfl
  withOwner owner _ hbody s := hbody { s with scopes := owner :: s.scopes }
  endPass _ := rfl
  beginFinal := by
    refine Moves.withState (fun s => ?_)
    cases s.pass <;> rfl

theorem report (line : Session → String) :
    Moves Session.SameLocations (Assembly.reportIfVerbose line) :=
  Assembly.moves_reportIfVerbose refl (fun _ _ => rfl) line

theorem runAll {render : Nat → Assembly Unit} {list : List Command}
    (h : Command.everyOf (fun c => !c.opensScope) list = true) :
    Moves Session.SameLocations (Command.runAll render list) := by
  refine Command.moves_runAll commands.toFollowedByMarks (fun owner body => commands.withOwner owner body)
    (fun c hleaf hkind => commands.leaf ?_ hleaf) list h
  rintro serial rfl
  exact nomatch hkind

end Session.SameLocations

/-- Locations one after another: the first starts at a place, each of the others one past the end of the
    one before it, and the last ends one before another place. -/
def Location.Tile : Number → List Location → Number → Prop
  | first, [], next => first = next
  | first, location :: rest, next =>
    location.start = first ∧ location.start ≤ location.finish + 1 ∧ Tile (location.finish + 1) rest next

/-- The location from a place up to another one. -/
def Location.upTo (first next : Nat) : Location := ⟨.ofNat first, .ofNat next - 1⟩

namespace Location

theorem finish_upTo (first : Nat) {next : Nat} (h : next ≤ 65536) :
    (upTo first next).finish = .ofInt ((next : Int) - 1) := by
  show Number.ofNat next - 1 = _
  rw [Number.ofNat_eq_ofInt, show (1 : Number) = Number.ofInt 1 from rfl,
    Number.ofInt_sub (by unfold Number.exactLimit; omega)]

theorem finish_upTo_add_one (first : Nat) {next : Nat} (h : next ≤ 65536) :
    (upTo first next).finish + 1 = .ofNat next := by
  rw [finish_upTo first h, show (1 : Number) = Number.ofInt 1 from rfl,
    Number.ofInt_add (by unfold Number.exactLimit; omega), Number.ofNat_eq_ofInt]
  congr 1
  omega

/-- The addresses in a location are those from its first place up to the next. -/
theorem mem_upTo {first next : Nat} (hnext : next ≤ 65536) {a : UInt16}
    (hstart : (upTo first next).start ≤ .ofAddress a) (hfinish : .ofAddress a ≤ (upTo first next).finish) :
    first ≤ a.toNat ∧ a.toNat < next := by
  rw [finish_upTo first hnext] at hfinish
  simp only [upTo, Number.ofAddress, Number.ofNat_eq_ofInt, Number.ofInt_le_iff] at hstart hfinish
  omega

end Location

namespace Catalogue

variable {catalogue : Catalogue}

/-- Components lie one after another, from a place up to another one: each where its location says, and
    all bytes there are its own. -/
inductive Lie (catalogue : Catalogue) (t : Session) : Nat → List Nat → Nat → Prop
  | nil (place : Nat) : Lie catalogue t place [] place
  | cons {serial first middle next : Nat} {c : Component} {order : List Nat}
      (hc : catalogue[serial]? = some c) (hle : first ≤ middle) (hfits : middle ≤ 65536)
      (hlocation : t.journal.locations.find? serial = some (.upTo first middle))
      (hheld : t.memory.Held c.id first middle) (rest : Lie catalogue t middle order next) :
      Lie catalogue t first (serial :: order) next

namespace Lie

theorem append {t : Session} {first middle next : Nat} {order order' : List Nat}
    (h : catalogue.Lie t first order middle) (h' : catalogue.Lie t middle order' next) :
    catalogue.Lie t first (order ++ order') next := by
  induction h with
  | nil _ => exact h'
  | cons hc hle hfits hlocation hheld _ ih => exact .cons hc hle hfits hlocation hheld (ih h')

/-- They stay where they lie as long as their owners and locations are kept. -/
theorem keep {s t : Session} {first next : Nat} {order : List Nat} (h : catalogue.Lie s first order next)
    (hkeeps : s.KeepsOwners t)
    (hlocations : ∀ serial ∈ order,
      t.journal.locations.find? serial = s.journal.locations.find? serial) :
    catalogue.Lie t first order next := by
  induction h with
  | nil place => exact .nil place
  | cons hc hle hfits hlocation hheld _ ih =>
      obtain ⟨hfirst, hrest⟩ := List.forall_mem_cons.mp hlocations
      exact .cons hc hle hfits (hfirst.trans hlocation) (hheld.keep hkeeps) (ih hrest)

/-- Their locations have no gaps. -/
theorem tile {t : Session} {first next : Nat} {order : List Nat} (h : catalogue.Lie t first order next) :
    ∃ locations, order.map t.journal.locations.find? = locations.map some ∧
      Location.Tile (.ofNat first) locations (.ofNat next) := by
  induction h with
  | nil place => exact ⟨[], rfl, rfl⟩
  | @cons serial first middle next c order hc hle hfits hlocation _ _ ih =>
      obtain ⟨locations, hlocations, htile⟩ := ih
      refine ⟨.upTo first middle :: locations, ?_, rfl, ?_, ?_⟩
      · rw [List.map_cons, List.map_cons, hlocation, hlocations]
      · rw [Location.finish_upTo_add_one first hfits]
        simp only [Location.upTo, Number.ofNat_eq_ofInt, Number.ofInt_le_iff]
        omega
      · rw [Location.finish_upTo_add_one first hfits]
        exact htile

/-- What lies in a location belongs to its component. -/
theorem owner {t : Session} {first next : Nat} {order : List Nat} (h : catalogue.Lie t first order next)
    {serial : Nat} (hserial : serial ∈ order) {c : Component} (hc : catalogue[serial]? = some c)
    {location : Location} (hlocation : t.journal.locations.find? serial = some location) {a : UInt16}
    (hstart : location.start ≤ .ofAddress a) (hfinish : .ofAddress a ≤ location.finish) :
    (t.memory.lookup (.ofAddress a)).map (·.owner) = some c.id := by
  induction h with
  | nil _ => exact nomatch hserial
  | @cons serial' first middle next c' order hc' hle hfits hlocation' hheld _ ih =>
      rcases List.mem_cons.mp hserial with rfl | hrest
      · obtain rfl : c' = c := Option.some.inj (hc'.symm.trans hc)
        obtain rfl : Location.upTo first middle = location := Option.some.inj (hlocation'.symm.trans hlocation)
        obtain ⟨hlow, hhigh⟩ := Location.mem_upTo hfits hstart hfinish
        obtain ⟨value, hcell⟩ := hheld a.toNat hlow hhigh
        rw [Number.ofAddress, hcell]
        rfl
      · exact ih hrest

end Lie

/-- What emitting the components of an order does to a session. -/
structure Rendered (catalogue : Catalogue) (s : Session) (order : List Nat) (t : Session) : Prop where
  start : t.cursor.start = s.cursor.start
  reaches : s.Reaches t
  others : ∀ serial, serial ∉ order →
    t.journal.locations.find? serial = s.journal.locations.find? serial
  lie : ∀ place ≤ 65536, s.cursor.position = .ofNat place →
    ∃ next ≤ 65536, t.cursor.position = .ofNat next ∧
      (s.pass = .final → catalogue.Lie t place order next)

namespace Rendered

theorem nil (s : Session) : catalogue.Rendered s [] s where
  start := rfl
  reaches := .refl s
  others _ _ := rfl
  lie place hle hplace := ⟨place, hle, hplace, fun _ => .nil place⟩

theorem append {r s t : Session} {order order' : List Nat} (h : catalogue.Rendered r order s)
    (h' : catalogue.Rendered s order' t) (hdisjoint : order.Disjoint order') :
    catalogue.Rendered r (order ++ order') t where
  start := h'.start.trans h.start
  reaches := .trans _ _ _ h.reaches h'.reaches
  others serial hserial := by
    rw [List.mem_append, not_or] at hserial
    rw [h'.others serial hserial.2, h.others serial hserial.1]
  lie place hle hplace := by
    obtain ⟨middle, hmiddle, hat, hlie⟩ := h.lie place hle hplace
    obtain ⟨next, hnext, hat', hlie'⟩ := h'.lie middle hmiddle hat
    refine ⟨next, hnext, hat', fun hfinal => ?_⟩
    have hkept := (hlie hfinal).keep (.of_reaches h'.reaches)
      (fun serial hserial => h'.others serial (hdisjoint hserial))
    exact hkept.append (hlie' ((Session.KeepsLabels.of_reaches h.reaches).pass hfinal))

end Rendered

end Catalogue

-- ── Emitting a tree ─────────────────────────────────────────────────────────

/-- What recording a location does to a session. -/
structure Session.Locates (s : Session) (serial : Nat) (location : Location) (t : Session) : Prop where
  cursor : t.cursor = s.cursor
  reaches : s.Reaches t
  others : ∀ other, other ≠ serial →
    t.journal.locations.find? other = s.journal.locations.find? other
  final : s.pass = .final → t.journal.locations.find? serial = some location

theorem Component.locates {serial : Nat} {id : String} {location : Location} {s t : Session}
    (h : (locate serial id location).exec s = (.ok (), t)) : s.Locates serial location t := by
  rw [locate, Action.exec_bind_of_ok (Action.exec_get s)] at h
  cases hpass : s.pass with
  | discovery =>
      rw [if_neg (by rw [hpass]; decide)] at h
      cases h
      exact ⟨rfl, .refl s, fun _ _ => rfl, fun hfinal => nomatch hpass.symm.trans hfinal⟩
  | final =>
      rw [if_pos (by rw [hpass]; rfl), Action.exec_bind_of_ok (Action.exec_set _ _)] at h
      have hreport := Assembly.moves_reportIfVerbose (R := fun s t => t.cursor = s.cursor)
        (fun _ => rfl) (fun _ _ => rfl) (fun _ => locationReport id location)
      have hcursor : t.cursor = _ := hreport.of_exec h
      have hlocations : t.journal.locations = s.journal.locations.insert serial location :=
        (Session.SameLocations.report _).of_exec h
      refine ⟨hcursor, ?_, fun other hother => ?_, fun _ => ?_⟩
      · exact .trans _ _ _ (Session.followed_reaches.journal s _)
          ((Session.followed_reaches.report _).of_exec h)
      · rw [hlocations, Table.find?_insert, if_neg (Ne.symm hother)]
      · rw [hlocations, Table.find?_insert, if_pos rfl]

namespace Catalogue

variable {catalogue : Catalogue}

/-- Recording the location of a component that was emitted before its children. -/
theorem Rendered.located {r s t u : Session} {serial : Nat} {c : Component} {order : List Nat}
    (hc : catalogue[serial]? = some c) (hserial : serial ∉ order) (hreaches : r.Reaches s)
    (hsweeps : r.Sweeps c.id s) (hlocations : r.SameLocations s) (h : catalogue.Rendered s order t)
    (hlocates : t.Locates serial ⟨r.cursor.position, s.cursor.position - 1⟩ u) :
    catalogue.Rendered r (serial :: order) u where
  start := by rw [hlocates.cursor, h.start, hsweeps.start]
  reaches := .trans _ _ _ hreaches (.trans _ _ _ h.reaches hlocates.reaches)
  others other hother := by
    rw [List.mem_cons, not_or] at hother
    rw [hlocates.others other hother.1, h.others other hother.2, hlocations]
  lie place hle hplace := by
    obtain ⟨middle, hfirst, hmiddle, hat, hheld⟩ := hsweeps.swept place hle hplace
    obtain ⟨next, hnext, hat', hlie⟩ := h.lie middle hmiddle hat
    refine ⟨next, hnext, by rw [hlocates.cursor, hat'], fun hfinal => ?_⟩
    have hs : s.pass = .final := (Session.KeepsLabels.of_reaches hreaches).pass hfinal
    have ht : t.pass = .final := (Session.KeepsLabels.of_reaches h.reaches).pass hs
    refine .cons hc hfirst hmiddle ?_ (hheld.keep (.of_reaches (.trans _ _ _ h.reaches hlocates.reaches))) ?_
    · rw [hlocates.final ht, hplace, hat, Location.upTo]
    · exact (hlie hs).keep (.of_reaches hlocates.reaches) (fun other hother =>
        hlocates.others other (fun heq => hserial (heq ▸ hother)))

/-- A component and those inside it. -/
theorem Rendered.component {s t : Session} {serial depth : Nat} {c : Component} {order : List Nat}
    (hc : catalogue[serial]? = some c) (hserial : serial ∉ order)
    (hbodies : ∀ body ∈ c.bodies, catalogue.EmitsInPlace body)
    (hchildren : ∀ u v, (Action.each (catalogue.render depth) c.children).exec u = (.ok (), v) →
      catalogue.Rendered u order v)
    (h : (c.emit (catalogue.render depth) serial).exec s = (.ok (), t)) :
    catalogue.Rendered s (serial :: order) t := by
  rw [Component.emit_eq] at h
  obtain ⟨_, _, hbefore, h⟩ := Action.exec_bind_eq_ok h
  cases hbefore
  obtain ⟨_, u, hcode, h⟩ := Action.exec_bind_eq_ok h
  obtain ⟨_, _, hafter, h⟩ := Action.exec_bind_eq_ok h
  cases hafter
  obtain ⟨_, v, hinside, hlocate⟩ := Action.exec_bind_eq_ok h
  have hreaches : s.Reaches u := by
    have hrender := Session.followed_reaches.render catalogue depth
    have hperforms : (Command.runAll (catalogue.render depth) c.code).Performs :=
      Session.followed_reaches.runAll hrender c.code
    exact Moves.of_exec (hperforms.withOwner c.id) hcode
  obtain ⟨u', hcode', rfl⟩ := Assembly.exec_withOwner_eq_ok hcode
  have hswept := ((c.sweeps_code hbodies depth).of_exec hcode').sweeps
  have hlocations := (Session.SameLocations.runAll (Component.scopeless_code hbodies)).of_exec hcode'
  refine .located hc hserial hreaches ?_ hlocations (hchildren _ v hinside) (Component.locates hlocate)
  exact ⟨hswept.start, .of_reaches hreaches, hswept.swept⟩

/-- Components one after another. -/
theorem Rendered.each {depth : Nat} {children : List Nat}
    (hrender : ∀ child ∈ children, ∀ s t, (catalogue.render depth child).exec s = (.ok (), t) →
      catalogue.Rendered s (catalogue.preorder depth child) t)
    (hnodup : (children.flatMap (catalogue.preorder depth)).Nodup) {s t : Session}
    (h : (Action.each (catalogue.render depth) children).exec s = (.ok (), t)) :
    catalogue.Rendered s (children.flatMap (catalogue.preorder depth)) t := by
  induction children generalizing s with
  | nil =>
      cases h
      exact .nil _
  | cons child rest ih =>
      rw [List.flatMap_cons] at hnodup ⊢
      obtain ⟨-, hothers, hdisjoint⟩ := List.nodup_append'.mp hnodup
      obtain ⟨hfirst, hlater⟩ := List.forall_mem_cons.mp hrender
      obtain ⟨_, u, hchild, hrest⟩ := Action.exec_bind_eq_ok h
      exact (hfirst s u hchild).append (ih hlater hothers hrest) hdisjoint

/-- Emitting a tree of components, each of which occurs once and emits in place. -/
theorem rendered {depth serial : Nat} {s t : Session}
    (hnodup : (catalogue.preorder depth serial).Nodup)
    (hbodies : ∀ member ∈ catalogue.preorder depth serial, ∀ c, catalogue[member]? = some c →
      ∀ body ∈ c.bodies, catalogue.EmitsInPlace body)
    (h : (catalogue.render depth serial).exec s = (.ok (), t)) :
    catalogue.Rendered s (catalogue.preorder depth serial) t := by
  induction depth generalizing serial s t with
  | zero => exact nomatch congrArg Prod.fst h
  | succ depth ih =>
      rw [render] at h
      rw [preorder] at hnodup hbodies ⊢
      cases hc : catalogue[serial]? with
      | none =>
          rw [hc] at h
          cases h
          exact .nil s
      | some c =>
          simp only [hc] at h hnodup hbodies ⊢
          obtain ⟨hserial, hrest⟩ := List.nodup_cons.mp hnodup
          obtain ⟨hbody, hinside⟩ := List.forall_mem_cons.mp hbodies
          refine .component hc hserial (hbody c hc) (fun u v => .each (fun child hchild u v hrun => ?_) hrest) h
          have hmembers : ∀ member ∈ catalogue.preorder depth child,
              member ∈ c.children.flatMap (catalogue.preorder depth) :=
            fun member hmember => List.mem_flatMap.mpr ⟨child, hchild, hmember⟩
          exact ih ((List.nodup_flatMap.mp hrest).1 child hchild)
            (fun member hmember => hinside member (hmembers member hmember)) hrun

end Catalogue

-- ── The limit to the nesting ────────────────────────────────────────────────

theorem Action.each_congr {σ α : Type} {step step' : α → Action σ Unit} {list : List α}
    (h : ∀ a ∈ list, step a = step' a) : Action.each step list = Action.each step' list := by
  induction list with
  | nil => rfl
  | cons a rest ih =>
      obtain ⟨hfirst, hrest⟩ := List.forall_mem_cons.mp h
      rw [each, each, hfirst, ih hrest]

namespace Command

variable (render render' : Nat → Assembly Unit)

mutual

/-- A command that holds no component does the same however components are emitted. -/
theorem run_of_scopeless (c : Command) (hc : c.every (fun c => !c.opensScope) = true) :
    c.run render = c.run render' := by
  cases c with
  | withOwner owner body | render serial => cases hc
  | subroutine name body | onlyIn pass body | ifDefined name body | attempt body =>
      rw [run, run, runAll_of_scopeless body (Bool.and_eq_true_iff.mp hc).2]
  | traced operation command => rw [run, run, run_of_scopeless command (Bool.and_eq_true_iff.mp hc).2]
  | _ => rfl

theorem runAll_of_scopeless (commands : List Command)
    (hc : everyOf (fun c => !c.opensScope) commands = true) :
    runAll render commands = runAll render' commands := by
  cases commands with
  | nil => rfl
  | cons c rest =>
      obtain ⟨hfirst, hrest⟩ := Bool.and_eq_true_iff.mp hc
      rw [runAll, runAll, run_of_scopeless c hfirst, runAll_of_scopeless rest hrest]

end

end Command

namespace Catalogue

variable {catalogue : Catalogue}

theorem lt_of_mem_preorder {depth serial member : Nat} (h : member ∈ catalogue.preorder depth serial) :
    member < catalogue.length := by
  induction depth generalizing serial with
  | zero => cases h
  | succ depth ih =>
      rw [preorder] at h
      cases hc : catalogue[serial]? with
      | none =>
          rw [hc] at h
          cases h
      | some c =>
          simp only [hc] at h
          rcases List.mem_cons.mp h with rfl | hinside
          · exact (List.getElem?_eq_some_iff.mp hc).1
          · obtain ⟨child, -, hmember⟩ := List.mem_flatMap.mp hinside
            exact ih hmember

/-- Each component occurs once, so there are no more of them than the catalogue has. -/
theorem length_preorder_le {depth serial : Nat} (h : (catalogue.preorder depth serial).Nodup) :
    (catalogue.preorder depth serial).length ≤ catalogue.length := by
  have hsubset : catalogue.preorder depth serial ⊆ List.range catalogue.length :=
    fun _ hmember => List.mem_range.mpr (lt_of_mem_preorder hmember)
  have hle := (List.Nodup.subperm h hsubset).length_le
  rwa [List.length_range] at hle

/-- A tree with fewer members than may be nested is emitted in the same way if more may be. -/
theorem render_add {depth serial : Nat} (hlength : (catalogue.preorder depth serial).length < depth)
    (hbodies : ∀ member ∈ catalogue.preorder depth serial, ∀ c, catalogue[member]? = some c →
      ∀ body ∈ c.bodies, catalogue.EmitsInPlace body) (more : Nat) :
    catalogue.render (depth + more) serial = catalogue.render depth serial := by
  induction depth generalizing serial with
  | zero => exact absurd hlength (Nat.not_lt_zero _)
  | succ depth ih =>
      rw [Nat.succ_add, render, render]
      cases hc : catalogue[serial]? with
      | none => rfl
      | some c =>
          simp only [preorder, hc, List.length_cons] at hlength hbodies
          obtain ⟨hbody, hinside⟩ := List.forall_mem_cons.mp hbodies
          -- the root is one member, so a level less is enough for each of its children
          have hchildren : ∀ child ∈ c.children,
              catalogue.render (depth + more) child = catalogue.render depth child := by
            intro child hchild
            have hsublist : (catalogue.preorder depth child).Sublist
                (c.children.flatMap (catalogue.preorder depth)) := by
              have hone := (List.singleton_sublist.mpr hchild).flatMap (catalogue.preorder depth)
              rwa [List.flatMap_singleton] at hone
            refine ih ?_ (fun member hmember => hinside member (hsublist.subset hmember))
            exact Nat.lt_of_le_of_lt hsublist.length_le (Nat.lt_of_succ_lt_succ hlength)
          have hcode := Component.scopeless_code (hbody c hc)
          show c.emit _ serial = c.emit _ serial
          rw [Component.emit_eq, Component.emit_eq, Action.each_congr hchildren,
            Command.runAll_of_scopeless _ (catalogue.render depth) c.code hcode]

/-- The program that emits a tree does not depend on how deep components may be nested, as long as all of
    the catalogue may be. -/
theorem render_eq_program {root depth : Nat}
    (htree : (catalogue.preorder (catalogue.length + 1) root).Nodup)
    (hbodies : ∀ member ∈ catalogue.preorder (catalogue.length + 1) root, ∀ c,
      catalogue[member]? = some c → ∀ body ∈ c.bodies, catalogue.EmitsInPlace body)
    (hdepth : catalogue.length < depth) : catalogue.render depth root = catalogue.program root := by
  have hsame : ∀ limit, catalogue.length < limit →
      catalogue.render limit root = catalogue.render (catalogue.length + 1) root := by
    intro limit hlimit
    obtain ⟨more, rfl⟩ := Nat.exists_eq_add_of_le (Nat.succ_le_of_lt hlimit)
    exact render_add (Nat.lt_succ_of_le (length_preorder_le htree)) hbodies more
  rw [program, hsame depth hdepth, hsame catalogue.nestingLimit (by unfold nestingLimit; omega)]

end Catalogue

-- ── The components of a program ─────────────────────────────────────────────

namespace Session.SameLocations

theorem turnOver : Moves Session.SameLocations Assembly.turnOver :=
  Moves.bind trans commands.endPass (fun _ => Moves.bind trans (report _) (fun _ =>
    Moves.answering refl trans commands.beginFinal _))

theorem conclude (discovery : PassStatistics) :
    Moves Session.SameLocations (Assembly.conclude discovery) := by
  refine Moves.bind trans commands.endPass (fun final => Moves.withState (fun s => ?_))
  cases passDifferences discovery final s.symbols.drifts with
  | nil => exact Moves.answering refl trans (report _) _ s
  | cons _ _ => exact refl s

end Session.SameLocations

/-- The locations that a compilation reports are those of its final pass, which began with those of
    discovery. -/
theorem locations_of_compile {program : Assembly Unit} {options : Options} {s last f : Session}
    (hcreate : Session.create options.withStart = .ok s) (hdiscovery : program.exec s = (.ok (), last))
    (hpass : last.pass = .discovery) (hfinal : program.exec last.turned = (.ok (), f)) :
    last.SameLocations last.turned ∧
      (compile program options).2.locations = f.journal.locations := by
  refine ⟨Session.SameLocations.turnOver last, ?_⟩
  have hjournal : (compile program options).2 = ((Assembly.bothPasses program).exec s).2.journal := by
    rw [compile, hcreate]
  rw [hjournal, Assembly.exec_bothPasses_of_ok hdiscovery hpass, Action.exec_bind_of_ok hfinal]
  exact Session.SameLocations.conclude last.statistics f

/-- A new session stands at the cursor of its options, with an empty journal. -/
theorem Session.firstCursor_of_create {options : Options} {s : Session}
    (h : Session.create options = .ok s) : options.firstCursor = .ok s.cursor ∧ s.journal = {} := by
  obtain ⟨cursor, hcursor, h⟩ := Check.bind_eq_ok h
  obtain ⟨memory, -, h⟩ := Check.bind_eq_ok h
  obtain ⟨symbols, -, h⟩ := Check.bind_eq_ok h
  rw [← Except.ok.inj h]
  exact ⟨hcursor, rfl⟩

/-- In a program that emits a tree of components, each of which occurs once and moves the cursor by
    emitting only, the components lie one after another, each before its children, from where the cursor
    starts to where the final pass leaves it. No other locations are recorded, and every address in a
    location belongs to its component. This is so for every limit to the nesting, that of `program` among
    them. -/
theorem components_tile_program {catalogue : Catalogue} {root depth : Nat} {options : Options}
    {c : Compilation} {journal : Journal}
    (htree : (catalogue.preorder depth root).Nodup)
    (hbodies : ∀ serial ∈ catalogue.preorder depth root, ∀ part,
      catalogue[serial]? = some part → ∀ body ∈ part.bodies, catalogue.EmitsInPlace body)
    (h : compile (catalogue.render depth root) options = (.ok c, journal)) :
    ∃ first locations, options.withStart.firstCursor = .ok first ∧
      (catalogue.preorder depth root).map journal.locations.find? =
        locations.map some ∧
      Location.Tile (.ofAddress first.start) locations c.final.endCursor ∧
      (∀ serial, serial ∉ catalogue.preorder depth root →
        journal.locations.find? serial = none) ∧
      ∀ serial part location, catalogue[serial]? = some part →
        journal.locations.find? serial = some location →
        ∀ a : UInt16, location.start ≤ .ofAddress a → .ofAddress a ≤ location.finish →
          (c.memory.lookup (.ofAddress a)).map (·.owner) = some part.id := by
  obtain ⟨s, last, f, hcreate, hdiscovery, hpass, hfinal, -, rfl⟩ := compile_eq_ok (congrArg Prod.fst h)
  obtain ⟨hturn, hjournal⟩ := locations_of_compile hcreate hdiscovery hpass hfinal
  rw [h] at hjournal
  obtain ⟨hcursor, hnew⟩ := Session.firstCursor_of_create hcreate
  have hbefore := Catalogue.rendered htree hbodies hdiscovery
  have hafter := Catalogue.rendered htree hbodies hfinal
  obtain ⟨turnJournal, hturned⟩ := Session.turned_eq hpass
  have hplace : last.turned.cursor.position = .ofNat s.cursor.start.toNat := by
    rw [hturned, ← hbefore.start]
    rfl
  have hlt := s.cursor.start.toNat_lt
  obtain ⟨next, -, hend, hlie⟩ := hafter.lie s.cursor.start.toNat (by omega) hplace
  replace hlie := hlie (by rw [hturned])
  obtain ⟨locations, hlocations, htile⟩ := hlie.tile
  have hnone : ∀ serial, serial ∉ catalogue.preorder depth root →
      journal.locations.find? serial = none := by
    intro serial hserial
    rw [hjournal, hafter.others serial hserial, hturn, hbefore.others serial hserial, hnew]
    rfl
  refine ⟨s.cursor, locations, hcursor, ?_, ?_, hnone, ?_⟩
  · rw [hjournal]
    exact hlocations
  · show Location.Tile _ _ f.cursor.position
    rw [hend]
    exact htile
  · intro serial part location hpart hlocation a hstart hfinish
    have hmember : serial ∈ catalogue.preorder depth root := by
      by_contra hout
      exact nomatch (hnone serial hout).symm.trans hlocation
    rw [hjournal] at hlocation
    exact hlie.owner hmember hpart hlocation hstart hfinish

/-- A component with a variable, two routines and a call, a child without code, and another child that has
    a child of its own, with a fill. -/
def nestedComponents : Catalogue :=
  [⟨"Root0", [.call "Leaf0" "go", .emit .rts []], [.declare "counter" (some 7) {}],
      [("spare", [.nop (some 2)]), ("again", [.onlyIn .final [.evaluate .here], .emit .inx []])], [1, 2]⟩,
    ⟨"Empty0", [], [], [], []⟩,
    ⟨"Leaf0", [], [], [("go", [.byte [.number 1, .number 2]])], [3]⟩,
    ⟨"Tail0", [.text "text" "hi", .fill 2 []], [], [], []⟩]

theorem nested_components_tile :
    ∃ c journal first locations,
      compile (nestedComponents.program 0) {} = (.ok c, journal) ∧
      nestedComponents.preorder nestedComponents.nestingLimit 0 = [0, 1, 2, 3] ∧
      journal.locations.find? 1 = some ⟨0x100A, 0x1009⟩ ∧
      journal.locations.find? 2 = some ⟨0x100A, 0x100C⟩ ∧
      ({} : Options).withStart.firstCursor = .ok first ∧
      [0, 1, 2, 3].map journal.locations.find? = locations.map some ∧
      Location.Tile (.ofAddress first.start) locations c.final.endCursor ∧
      (c.memory.lookup (.ofAddress 0x100C)).map (·.owner) = some "Leaf0" := by
  have horder : nestedComponents.preorder nestedComponents.nestingLimit 0 = [0, 1, 2, 3] := by decide +kernel
  have hbodies : ∀ serial ∈ nestedComponents.preorder nestedComponents.nestingLimit 0, ∀ part,
      nestedComponents[serial]? = some part → ∀ body ∈ part.bodies,
        nestedComponents.EmitsInPlace body := by
    have hall : ∀ part ∈ nestedComponents, ∀ body ∈ part.bodies,
        Command.everyOf Command.isInPlace body = true := by
      decide
    exact fun serial _ part hpart body hbody =>
      Command.emitsInPlace _ (hall part (List.mem_of_getElem? hpart) body hbody)
  have hmade : (compile (nestedComponents.program 0) {}).1.map (·.start) = .ok 0x1000 := by
    decide +kernel
  have hempty : (compile (nestedComponents.program 0) {}).2.locations.find? 1 =
      some ⟨0x100A, 0x1009⟩ := by decide +kernel
  have hleaf : (compile (nestedComponents.program 0) {}).2.locations.find? 2 =
      some ⟨0x100A, 0x100C⟩ := by decide +kernel
  obtain ⟨c, hc⟩ := Check.exists_of_map hmade
  obtain ⟨first, locations, hfirst, hlocations, htile, -, howner⟩ :=
    components_tile_program (by rw [horder]; decide) hbodies (Prod.ext hc rfl)
  rw [horder] at hlocations
  refine ⟨c, _, first, locations, Prod.ext hc rfl, horder, hempty, hleaf, hfirst, hlocations, htile, ?_⟩
  exact howner 2 _ _ rfl hleaf 0x100C (by decide) (by decide)

end Asm6502
