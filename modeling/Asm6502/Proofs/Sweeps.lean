import Asm6502.Proofs.Fills
import Asm6502.Proofs.OwnerScopes
import Asm6502.Proofs.Ownership

/-!
# Emitting at the cursor

The cursor of a session may be moved anywhere. Commands that emit code and variables, and fills of a whole
number of bytes, move it only over the bytes that they write, and so each place between where the cursor was
and where it is then holds a byte of the owner that emitted it. That this is so is a condition on the moments
of a run here; trees of emitting commands meet it by their form.

Past the last address nothing can be written, so nothing is asked of a session whose cursor stands there.

* `Session.MovesOver`: the cursor moves over bytes that were written.
* `Catalogue.EmitsInPlace`: commands that move the cursor in no other way and open no owner scope.
* `Command.emitsInPlace`: trees of emitting commands do so.
* `Catalogue.EmitsInPlace.moves`: what they leave behind belongs to the current owner.
-/

namespace Asm6502

open Asm6502.Action (Moves)

-- ── Moving over bytes ───────────────────────────────────────────────────────

/-- From a place in memory, or just past the last, the cursor moves on over bytes that are all among the
    writes. -/
structure Session.MovesOver (s : Session) (ws : List Write) (t : Session) : Prop where
  start : t.cursor.start = s.cursor.start
  moved : ∀ place ≤ 65536, s.cursor.position = .ofNat place →
    ∃ next, place ≤ next ∧ t.cursor.position = .ofNat next ∧
      ∀ p, place ≤ p → p < next → ∃ w ∈ ws, w.address.toNat = p

namespace Session.MovesOver

variable {r s t : Session} {ws ws' : List Write}

/-- The cursor stays where it is. -/
theorem of_same (h : t.cursor = s.cursor) : s.MovesOver ws t where
  start := by rw [h]
  moved place _ hplace := by
    refine ⟨place, Nat.le_refl _, by rw [h, hplace], fun p hfirst hnext => ?_⟩
    omega

/-- Bytes have addresses, so the cursor does not get far. -/
theorem next_le {place next : Nat} (hle : place ≤ 65536)
    (hwritten : ∀ p, place ≤ p → p < next → ∃ w ∈ ws, w.address.toNat = p) : next ≤ 65536 := by
  by_contra hfar
  obtain ⟨w, -, ha⟩ := hwritten 65536 hle (by omega)
  have hlt := w.address.toNat_lt
  omega

/-- The cursor moves on by a count, over as many places that were all written. -/
theorem of_written {n : Nat} (hstart : t.cursor.start = s.cursor.start)
    (hposition : t.cursor.position = s.cursor.position + .ofNat n)
    (hwritten : ∀ j < n, ∃ w ∈ ws, s.cursor.position + .ofNat j = .ofAddress w.address) :
    s.MovesOver ws t where
  start := hstart
  moved place hle hplace := by
    have hplaces : ∀ j < n, j ≤ 65536 → ∃ w ∈ ws, w.address.toNat = place + j := by
      intro j hj hsmall
      obtain ⟨w, hw, hat⟩ := hwritten j hj
      rw [hplace, Number.ofNat_add (by unfold Number.exactLimit; omega)] at hat
      exact ⟨w, hw, (Number.ofNat_injective hat).symm⟩
    -- none of the places lies past the last address, so the count is small as well
    have hfits : place + n ≤ 65536 := by
      by_contra hfar
      obtain ⟨w, -, ha⟩ := hplaces (65536 - place) (by omega) (by omega)
      have hlt := w.address.toNat_lt
      omega
    refine ⟨place + n, Nat.le_add_right _ _, ?_, fun p hfirst hnext => ?_⟩
    · rw [hposition, hplace, Number.ofNat_add (by unfold Number.exactLimit; omega)]
    · obtain ⟨w, hw, ha⟩ := hplaces (p - place) (by omega) (by omega)
      exact ⟨w, hw, by omega⟩

theorem trans (h : r.MovesOver ws s) (h' : s.MovesOver ws' t) : r.MovesOver (ws' ++ ws) t where
  start := h'.start.trans h.start
  moved place hle hplace := by
    obtain ⟨middle, hfirst, hat, hwritten⟩ := h.moved place hle hplace
    obtain ⟨next, hsecond, hat', hwritten'⟩ := h'.moved middle (next_le hle hwritten) hat
    refine ⟨next, Nat.le_trans hfirst hsecond, hat', fun p hlow hhigh => ?_⟩
    by_cases hmiddle : p < middle
    · obtain ⟨w, hw, ha⟩ := hwritten p hlow hmiddle
      exact ⟨w, List.mem_append_right ws' hw, ha⟩
    · obtain ⟨w, hw, ha⟩ := hwritten' p (by omega) hhigh
      exact ⟨w, List.mem_append_left ws hw, ha⟩

end Session.MovesOver

/-- Bytes were written, and the cursor moved over them if it moved. -/
def Session.Advances (s t : Session) : Prop :=
  ∃ ws, t.written = ws ++ s.written ∧ s.MovesOver ws t

namespace Session.Advances

/-- Nothing was written, and the cursor did not move. -/
theorem of_same {s t : Session} (hwritten : t.written = s.written) (hcursor : t.cursor = s.cursor) :
    s.Advances t :=
  ⟨[], hwritten, .of_same hcursor⟩

theorem refl (s : Session) : s.Advances s := of_same rfl rfl

theorem trans (r s t : Session) (h : r.Advances s) (h' : s.Advances t) : r.Advances t := by
  obtain ⟨ws, hwritten, hmoved⟩ := h
  obtain ⟨ws', hwritten', hmoved'⟩ := h'
  exact ⟨ws' ++ ws, by rw [hwritten', hwritten, List.append_assoc], hmoved.trans hmoved'⟩

theorem resolve (name : String) : Moves Session.Advances (Assembly.resolve name) :=
  Assembly.moves_resolve (fun _ _ => of_same rfl rfl) name

/-- A byte is written where the cursor stands, and the cursor moves over it. -/
theorem emitByte (value : Number) : Moves Session.Advances (Assembly.emitByte value) := by
  intro s
  rw [Assembly.exec_emitByte]
  cases hcheck : Image.checkWrite s.cursor.position value s.owner with
  | error fault => exact refl s
  | ok w =>
      dsimp only
      cases s.memory.store w with
      | error fault => exact refl s
      | ok m =>
          obtain ⟨_, haddress, -, -⟩ := Image.checkWrite_eq_ok hcheck
          have hposition : s.cursor.position = .ofNat w.address.toNat :=
            Number.toAddress?_eq_some_iff.mp haddress
          have hlt := w.address.toNat_lt
          refine ⟨[w], rfl, .of_written (n := 1) rfl rfl (fun j hj => ⟨w, List.mem_singleton_self w, ?_⟩)⟩
          rw [hposition, Number.ofNat_add (by unfold Number.exactLimit; omega), Number.ofAddress,
            Nat.lt_one_iff.mp hj, Nat.add_zero]

/-- A fill of `n` bytes moves the cursor over them if it begins at the cursor. Elsewhere it leaves the cursor
    where it is. -/
theorem fillFrom (n : Nat) (rule : Option (Nat → Option Number)) (target : Number × Number) (s : Session) :
    s.Advances ((Assembly.fillFrom (.ofNat n) rule s.cursor.position target).exec s).2 := by
  obtain ⟨outcome, t, ws, hloop, hwritten, hcursor, hplaces⟩ :=
    Assembly.exec_times_storeGiven (fun i => target.1 + .ofNat i)
      (rule.getD (fun _ => some target.2)) n 0 s
  rw [Assembly.fillFrom, Number.rounds_ofNat]
  cases outcome with
  | error fault =>
      rw [Action.exec_bind_of_error hloop]
      exact ⟨ws, hwritten, .of_same hcursor⟩
  | ok _ =>
      rw [Action.exec_bind_of_ok hloop]
      by_cases hhere : target.1.equals s.cursor.position = true
      · rw [if_pos hhere]
        refine ⟨ws, hwritten, .of_written (n := n) ?_ ?_ (fun j hj => ?_)⟩
        · show t.cursor.start = _
          rw [hcursor]
        · show t.cursor.position + .ofNat n = _
          rw [hcursor]
        · obtain ⟨w, hw, hat⟩ := hplaces rfl j hj
          rw [Number.eq_of_equals hhere, Nat.zero_add] at hat
          exact ⟨w, hw, hat⟩
      · rw [if_neg hhere]
        exact ⟨ws, hwritten, .of_same hcursor⟩

theorem fill (n : Nat) (args : List Assembly.FillArgument) :
    Moves Session.Advances (Assembly.fill (.ofNat n) args) := by
  rw [Assembly.fill_eq]
  refine Moves.bind trans (Moves.check refl _) (fun given => Moves.withState (fun s => ?_))
  cases htarget : Assembly.fillTarget s.cursor.position given.1 with
  | error fault => exact refl s
  | ok target => exact fillFrom n given.2 target s

end Session.Advances

/-- Emitting code and variables moves the cursor over what is written. -/
theorem followed_advances : FollowedByMarks Session.Advances where
  refl := .refl
  trans := .trans
  resolve := .resolve
  evaluate := Assembly.moves_evaluate .refl .trans .resolve
  storeByte := Assembly.moves_storeByte .refl (fun _ w _ => ⟨[w], rfl, .of_same rfl⟩)
  emitByte := .emitByte
  label := Assembly.moves_label (fun _ _ => .of_same rfl rfl)
  pin _ _ := .of_same rfl rfl
  countInstruction _ := .of_same rfl rfl
  entrypoint _ := .of_same rfl rfl
  pinAt _ _ _ := .of_same rfl rfl
  marks _ _ _ := .of_same rfl rfl
  record _ _ _ := .of_same rfl rfl

-- ── Commands that emit in place ─────────────────────────────────────────────

/-- Commands that open an owner scope, their own or that of a component. -/
def Command.opensScope : Command → Bool
  | .withOwner _ _ | .render _ => true
  | _ => false

/-- Commands that open no owner scope and move the cursor only over bytes that they write, wherever in
    memory they run. -/
structure Catalogue.EmitsInPlace (catalogue : Catalogue) (commands : List Command) : Prop where
  scopeless : Command.everyOf (fun c => !c.opensScope) commands = true
  movesOver : ∀ depth (s : Session),
    ∀ m ∈ Command.momentsOf (catalogue.render depth) s.owner commands s, m.before.MovesOver m.writes m.after

namespace Command

/-- Fills of a whole number of bytes. -/
def isWholeFill : Command → Bool
  | .fill length _ => length = .ofNat length.rounds
  | _ => false

/-- Commands that emit code and variables, fill memory, define labels, ask for values and leave marks, and
    those that hold such commands for the same owner. -/
def isInPlace (c : Command) : Bool := c.isCode || c.isMark || c.isWholeFill || !c.isLeaf && !c.opensScope

theorem advances_wholeFill {render : Nat → Assembly Unit} {c : Command} (h : c.isWholeFill = true) :
    Moves Session.Advances (c.run render) := by
  cases c with
  | fill length args =>
      have hlength : length = .ofNat length.rounds := of_decide_eq_true h
      have hfill : Moves Session.Advances (Assembly.fill length args) := by
        rw [hlength]
        exact .fill length.rounds args
      exact Moves.answering .refl .trans hfill _
  | _ => cases h

theorem advances_partOf {render : Nat → Assembly Unit} {part : Command} (h : PartOf isInPlace part) :
    Moves Session.Advances (part.run render) := by
  cases h with
  | @leaf c _ hleaf hkind hmem =>
      rw [isInPlace, hleaf, Bool.not_true, Bool.false_and, Bool.or_false] at hkind
      rcases mem_parts hmem with ⟨m, args, rfl⟩ | ⟨-, rfl⟩
      · exact followed_advances.toFollowedByCode.run render rfl
      · rw [Bool.or_eq_true_iff, Bool.or_eq_true_iff] at hkind
        rcases hkind with (hcode | hmark) | hfill
        · exact followed_advances.toFollowedByCode.run render hcode
        · exact followed_advances.run render hmark
        · exact advances_wholeFill hfill
  | entry name => exact followed_advances.toFollowedByCode.run render rfl
  | exit => exact followed_advances.toFollowedByCode.run render rfl

/-- Trees of emitting commands emit in place. -/
theorem emitsInPlace (catalogue : Catalogue) {commands : List Command}
    (h : everyOf isInPlace commands = true) : catalogue.EmitsInPlace commands where
  scopeless := by
    refine everyOf_mono (fun c hc => ?_) commands h
    cases c with
    | withOwner _ _ | render _ => exact nomatch hc
    | _ => rfl
  movesOver depth s := by
    have hrender : ∀ serial, Moves Session.SameScopes (catalogue.render depth serial) :=
      followed_sameScopes.render catalogue depth
    have hany : ∀ owner body, isInPlace (.withOwner owner body) = true → True := fun _ _ _ => trivial
    refine forall_momentsOf hrender hany (fun owner part _ hpart s _ => ?_) trivial commands h s rfl
    have hadvances : Moves Session.Advances (part.run (catalogue.render depth)) := advances_partOf hpart
    obtain ⟨ws, hwritten, hmoved⟩ := hadvances s
    rwa [Moment.writes_eq hwritten]

end Command

-- ── What is left behind ─────────────────────────────────────────────────────

/-- The places from `first` up to `next` hold bytes of an owner. -/
def Image.Held (m : Image) (owner : String) (first next : Nat) : Prop :=
  ∀ place, first ≤ place → place < next → ∃ value, m.lookup (.ofNat place) = some ⟨value, owner⟩

namespace Image.Held

theorem nil (m : Image) (owner : String) (place : Nat) : m.Held owner place place := by
  intro _ hfirst hnext
  omega

theorem append {m : Image} {owner : String} {first middle next : Nat} (h : m.Held owner first middle)
    (h' : m.Held owner middle next) : m.Held owner first next := by
  intro place hfirst hnext
  by_cases hmiddle : place < middle
  · exact h place hfirst hmiddle
  · exact h' place (by omega) hnext

theorem keep {s t : Session} {owner : String} {first next : Nat} (h : s.memory.Held owner first next)
    (hkeeps : s.KeepsOwners t) : t.memory.Held owner first next := by
  intro place hfirst hnext
  obtain ⟨value, hcell⟩ := h place hfirst hnext
  exact hkeeps _ _ hcell

end Image.Held

/-- From where the cursor was to where it is, all bytes belong to an owner. What was written before keeps
    its owners. -/
structure Session.Sweeps (owner : String) (s t : Session) : Prop where
  start : t.cursor.start = s.cursor.start
  keeps : s.KeepsOwners t
  swept : ∀ place ≤ 65536, s.cursor.position = .ofNat place →
    ∃ next, place ≤ next ∧ next ≤ 65536 ∧ t.cursor.position = .ofNat next ∧
      t.memory.Held owner place next

namespace Session.Sweeps

variable {owner : String} {r s t : Session}

/-- The cursor did not move. -/
theorem of_same (hcursor : t.cursor = s.cursor) (hkeeps : s.KeepsOwners t) : s.Sweeps owner t where
  start := by rw [hcursor]
  keeps := hkeeps
  swept place hle hplace := ⟨place, Nat.le_refl _, hle, by rw [hcursor, hplace], .nil _ _ _⟩

theorem trans (h : r.Sweeps owner s) (h' : s.Sweeps owner t) : r.Sweeps owner t where
  start := h'.start.trans h.start
  keeps := .trans _ _ _ h.keeps h'.keeps
  swept place hle hplace := by
    obtain ⟨middle, hfirst, hmiddle, hat, hheld⟩ := h.swept place hle hplace
    obtain ⟨next, hsecond, hnext, hat', hheld'⟩ := h'.swept middle hmiddle hat
    exact ⟨next, Nat.le_trans hfirst hsecond, hnext, hat', (hheld.keep h'.keeps).append hheld'⟩

/-- The cursor moves over bytes that an owner wrote. -/
theorem of_movesOver {ws : List Write} (hmoves : s.MovesOver ws t) (hkeeps : s.KeepsOwners t)
    (hws : ∀ w ∈ ws, ∃ value, t.memory.lookup (.ofAddress w.address) = some ⟨value, owner⟩) :
    s.Sweeps owner t where
  start := hmoves.start
  keeps := hkeeps
  swept place hle hplace := by
    obtain ⟨next, hfirst, hat, hwritten⟩ := hmoves.moved place hle hplace
    refine ⟨next, hfirst, Session.MovesOver.next_le hle hwritten, hat, fun p hlow hhigh => ?_⟩
    obtain ⟨w, hw, ha⟩ := hwritten p hlow hhigh
    obtain ⟨value, hcell⟩ := hws w hw
    rw [Number.ofAddress, ha] at hcell
    exact ⟨value, hcell⟩

end Session.Sweeps

/-- What an owner wrote last at a place belongs to it. -/
theorem exists_cellAfter {owner : String} {ws : List Write} (howner : ∀ w ∈ ws, w.cell.owner = owner)
    {a : UInt16} (h : ∃ w ∈ ws, w.address = a) (cell : Option Cell) :
    ∃ value, cellAfter a cell ws = some ⟨value, owner⟩ := by
  induction ws with
  | nil =>
      obtain ⟨w, hw, -⟩ := h
      exact nomatch hw
  | cons first rest ih =>
      by_cases hfirst : first.address = a
      · refine ⟨first.cell.value, ?_⟩
        rw [cellAfter, if_pos hfirst, ← howner first (List.mem_cons_self ..)]
      · rw [cellAfter, if_neg hfirst]
        refine ih (fun w hw => howner w (List.mem_cons_of_mem _ hw)) ?_
        obtain ⟨w, hw, ha⟩ := h
        rcases List.mem_cons.mp hw with rfl | hrest
        · exact absurd ha hfirst
        · exact ⟨w, hrest, ha⟩

/-- What was written as the current owner belongs to it. -/
theorem Session.WritesAsOwner.exists_lookup {s t : Session} (h : s.WritesAsOwner t) {ws : List Write}
    (hwritten : t.written = ws ++ s.written) :
    ∀ w ∈ ws, ∃ value, t.memory.lookup (.ofAddress w.address) = some ⟨value, s.owner⟩ := by
  obtain ⟨-, ws', hlaid, howner⟩ := h
  obtain rfl : ws = ws' := List.append_cancel_right (hwritten.symm.trans hlaid.written)
  intro w hw
  obtain ⟨value, hcell⟩ := exists_cellAfter howner ⟨w, hw, rfl⟩ (s.memory.cell? w.address)
  exact ⟨value, Image.lookup_eq_some_iff.mpr ⟨w.address, rfl, (hlaid.cells w.address).trans hcell⟩⟩

/-- What was written at a moment belongs to an owner. -/
def Moment.Owned (m : Moment) (owner : String) : Prop :=
  ∀ w ∈ m.writes, ∃ value, m.after.memory.lookup (.ofAddress w.address) = some ⟨value, owner⟩

theorem Moment.Owned.of_nil {m : Moment} (h : m.writes = []) (owner : String) : m.Owned owner := by
  intro w hw
  rw [h] at hw
  exact nomatch hw

/-- Outside of scopes a single command writes as the current owner, or what it does is no emitting. -/
theorem Command.owned_of_partOf {render : Nat → Assembly Unit} {part : Command}
    (h : PartOf (fun c => !c.opensScope) part) (owner : String) (s : Session) :
    (Moment.mk owner part s ((part.run render).exec s).2).Owned s.owner := by
  have hsimple : part.isSimple = true →
      (Moment.mk owner part s ((part.run render).exec s).2).Owned s.owner := by
    intro hpart
    have hwrites : s.WritesAsOwner ((part.run render).exec s).2 := writesAsOwner_run hpart s
    obtain ⟨ws, hlaid, -⟩ := hwrites.laid
    rw [Moment.Owned, Moment.writes_eq hlaid.written]
    exact hwrites.exists_lookup hlaid.written
  cases h with
  | entry name => exact hsimple rfl
  | exit => exact hsimple rfl
  | @leaf c _ hleaf hkind hmem =>
      rcases mem_parts hmem with ⟨m, args, rfl⟩ | ⟨-, rfl⟩
      · exact hsimple rfl
      · cases part with
        | memory command =>
            have hsame : ((Command.run render (.memory command)).exec s).2.written = [] ++ s.written := rfl
            exact .of_nil (Moment.writes_eq hsame) _
        | endPass =>
            have hempty : ((Command.run render .endPass).exec s).2.written = [] := rfl
            exact .of_nil (by rw [Moment.writes, hempty, List.take_nil]) _
        | beginFinal =>
            have hsame : ((Command.run render .beginFinal).exec s).2.written = [] ++ s.written := by
              rw [run, Action.exec_answering, Assembly.beginFinal,
                Action.exec_bind_of_ok (Action.exec_get s)]
              cases s.pass <;> rfl
            exact .of_nil (Moment.writes_eq hsame) _
        | render serial => cases hkind
        | withOwner _ _ | subroutine _ _ | onlyIn _ _ | ifDefined _ _ | attempt _ | traced _ _ =>
            cases hleaf
        | _ => exact hsimple rfl

theorem Chain.sweeps {render : Nat → Assembly Unit} {s t : Session} {ms : List Moment} {owner : String}
    (h : Chain render s ms t) (hms : ∀ m ∈ ms, m.before.Sweeps owner m.after) : s.Sweeps owner t := by
  have hlink : ∀ {r u : Session}, r.Linked u → r.Sweeps owner u := by
    rintro r u ⟨scopes, journal, rfl⟩
    exact .of_same rfl (.refl r)
  induction h with
  | nil hst => exact hlink hst
  | @cons s t m ms hbefore hrun rest ih =>
      have hrest := ih (fun m' hm' => hms m' (List.mem_cons_of_mem _ hm'))
      exact ((hlink hbefore).trans (hms m (List.mem_cons_self ..))).trans hrest

/-- The current owner emitted, and nobody else did. -/
structure Session.SweepsAsOwner (s t : Session) : Prop extends Session.SameScopes s t where
  sweeps : s.Sweeps s.owner t

namespace Session.SweepsAsOwner

theorem refl (s : Session) : s.SweepsAsOwner s := ⟨.refl s, .of_same rfl (.refl s)⟩

theorem trans (r s t : Session) (h : r.SweepsAsOwner s) (h' : s.SweepsAsOwner t) :
    r.SweepsAsOwner t := by
  refine ⟨.trans _ _ _ h.toSameScopes h'.toSameScopes, h.sweeps.trans ?_⟩
  rw [← h.owner]
  exact h'.sweeps

/-- Code at the cursor is swept over by its owner. -/
theorem code {α : Type} {action : Assembly α} (hadvances : Moves Session.Advances action)
    (hwrites : Moves Session.WritesAsOwner action) (hreaches : Moves Session.Reaches action) :
    Moves Session.SweepsAsOwner action := by
  intro s
  obtain ⟨ws, hwritten, hmoved⟩ := hadvances s
  exact ⟨(hwrites s).toSameScopes, .of_movesOver hmoved (.of_reaches (hreaches s))
    ((hwrites s).exists_lookup hwritten)⟩

/-- The label of a subroutine takes no place, and its return is a byte of the current owner. -/
theorem subroutine (name : String) {body : Assembly Unit} (hbody : Moves Session.SweepsAsOwner body) :
    Moves Session.SweepsAsOwner (Assembly.subroutine name body) := by
  have hlabel : Moves Session.SweepsAsOwner (Assembly.label name none) :=
    code (followed_advances.label name none) (followed_writesAsOwner.label name none)
      (followed_reaches.label name none)
  have hreturn : Moves Session.SweepsAsOwner (do let _ ← Assembly.emit .rts []) :=
    code (followed_advances.emitUnit .rts []) (followed_writesAsOwner.emitUnit .rts [])
      (followed_reaches.emitUnit .rts [])
  exact Moves.bind trans hlabel (fun _ => Moves.bind trans hbody (fun _ => hreturn))

end Session.SweepsAsOwner

/-- Commands that emit in place are swept over by the current owner. -/
theorem Catalogue.EmitsInPlace.moves {catalogue : Catalogue} {commands : List Command}
    (h : catalogue.EmitsInPlace commands) (depth : Nat) :
    Moves Session.SweepsAsOwner (Command.runAll (catalogue.render depth) commands) := by
  intro s
  have hrender : ∀ serial, Moves Session.SameScopes (catalogue.render depth serial) :=
    followed_sameScopes.render catalogue depth
  refine ⟨followed_sameScopes.runAll hrender commands s, ?_⟩
  refine (Command.chain_momentsOf s.owner commands s).sweeps (fun m hm => ?_)
  have howned : ∀ m ∈ Command.momentsOf (catalogue.render depth) s.owner commands s,
      m.before.KeepsOwners m.after ∧ m.Owned s.owner := by
    have hscope : ∀ owner body, (!(Command.withOwner owner body).opensScope) = true → s.owner = owner :=
      fun _ _ hkind => nomatch hkind
    refine Command.forall_momentsOf hrender hscope ?_ rfl commands h.scopeless s rfl
    rintro _ part rfl hpart t ht
    refine ⟨.of_reaches (Assembly.Performs.command catalogue depth part t), ?_⟩
    rw [← ht]
    exact Command.owned_of_partOf hpart t.owner t
  obtain ⟨hkeeps, hws⟩ := howned m hm
  exact .of_movesOver (h.movesOver depth s m hm) hkeeps hws

end Asm6502
