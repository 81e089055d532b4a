import Asm6502.Proofs.Events
import Asm6502.Proofs.Exactness
import Asm6502.Proofs.TwoPasses

/-!
# Ownership is permanent

A cell belongs to the first owner that writes it, for good. Writes are the only operations that touch
cells; one that succeeds puts a byte where the cell was free or belonged to the same owner, and one that
fails leaves the session alone. So owners are kept by every operation, hence by every sequence of them,
through failures that are caught, owner scopes and both passes.
-/

namespace Asm6502

-- ── Cells by number ─────────────────────────────────────────────────────────

namespace Image

/-- A cell lies at an address. -/
theorem lookup_eq_some_iff {m : Image} {x : Number} {cell : Cell} :
    m.lookup x = some cell ↔ ∃ a, x = .ofAddress a ∧ m.cell? a = some cell := by
  unfold lookup
  constructor
  · intro h
    obtain ⟨a, ha, hcell⟩ := Option.bind_eq_some_iff.mp h
    exact ⟨a, Number.toAddress?_eq_some_iff.mp ha, hcell⟩
  · rintro ⟨a, rfl, hcell⟩
    rw [Number.toAddress?_eq_some_iff.mpr rfl]
    exact hcell

/-- Images with the same cells answer alike. -/
theorem lookup_of_cells {m m' : Image} (h : m'.cells = m.cells) (x : Number) :
    m'.lookup x = m.lookup x := by
  unfold lookup cell?
  rw [h]

/-- A write puts its cell in place, and nothing else. -/
theorem lookup_put {m : Image} {w : Write} (y : Number) :
    (m.put w).lookup y = if y = .ofAddress w.address then some w.cell else m.lookup y := by
  unfold lookup
  by_cases hy : y = .ofAddress w.address
  · rw [if_pos hy, Number.toAddress?_eq_some_iff.mpr hy]
    show (m.put w).cell? w.address = some w.cell
    rw [cell?_put, if_pos rfl]
  · rw [if_neg hy]
    cases ha : y.toAddress? with
    | none => rfl
    | some a =>
        have hne : w.address ≠ a := by
          rintro rfl
          exact hy (Number.toAddress?_eq_some_iff.mp ha)
        show (m.put w).cell? a = m.cell? a
        rw [cell?_put, if_neg hne]

end Image

-- ── What an operation does to cells ─────────────────────────────────────────

namespace Session

/-- What comes of the write of a byte for an owner: the byte is put in a cell that was free or belonged to
    the owner, or nothing happens. -/
inductive Writes (s : Session) (address value : Number) (owner : String) :
    Except Fault Unit → Session → Prop
  | done {w : Write} {t : Session} (hcheck : Image.checkWrite address value owner = .ok w)
      (hadmits : s.memory.Admits w) (hmemory : t.memory = s.memory.put w) :
      Writes s address value owner (.ok ()) t
  | refused (fault : Fault) : Writes s address value owner (.error fault) s

theorem writes_storeByte {s t : Session} {address value : Number} {answer : Except Fault Unit}
    (h : (Assembly.storeByte address value).exec s = (answer, t)) :
    s.Writes address value s.owner answer t := by
  rcases Assembly.exec_storeByte_cases address value s with ⟨w, hcheck, hadmits, hrun⟩ | ⟨fault, hrun⟩
  · rw [h] at hrun
    cases hrun
    exact .done hcheck hadmits rfl
  · rw [h] at hrun
    cases hrun
    exact .refused fault

theorem writes_image {s t : Session} {address value : Number} {owner : String}
    {answer : Except Fault Reply}
    (h : (Assembly.onMemory (MemoryCommand.run (.write address value owner))).exec s = (answer, t)) :
    s.Writes address value owner (answer.map (fun _ => ())) t := by
  rw [Assembly.onMemory, Action.exec_onPart, MemoryCommand.run,
    Action.exec_bind_of_ok (Action.exec_get _)] at h
  cases hwrite : s.memory.write address value owner with
  | error fault =>
      rw [hwrite] at h
      cases h
      exact .refused fault
  | ok m =>
      rw [hwrite] at h
      cases h
      obtain ⟨w, hcheck, hstore⟩ := Check.bind_eq_ok hwrite
      obtain ⟨hadmits, rfl⟩ := Image.store_eq_ok hstore
      exact .done hcheck hadmits rfl

/-- An operation is a write, or it spares the cells. -/
theorem Step.cells_or_writes {s t : Session} {e : Event} (h : s.Step e t) :
    t.memory.cells = s.memory.cells ∨
      ∃ address value owner answer, e = .write address value owner answer ∧
        s.Writes address value owner answer t := by
  cases h with
  | @lookup _ name _ hrun =>
      obtain ⟨references, hresolve⟩ := Assembly.exec_resolve name s
      rw [hresolve] at hrun
      cases hrun
      exact Or.inl rfl
  | definition hrun =>
      rw [Assembly.exec_label] at hrun
      cases hrun
      exact Or.inl rfl
  | store hrun => exact Or.inr ⟨_, _, _, _, rfl, writes_storeByte hrun⟩
  | write hrun => exact Or.inr ⟨_, _, _, _, rfl, writes_image hrun⟩
  | other hspares => exact Or.inl hspares.cells

theorem Step.writes {s t : Session} {address value : Number} {owner : String}
    {answer : Except Fault Unit} (h : s.Step (.write address value owner answer) t) :
    s.Writes address value owner answer t := by
  generalize he : Event.write address value owner answer = e at h
  cases h with
  | store hrun =>
      cases he
      exact writes_storeByte hrun
  | write hrun =>
      cases he
      exact writes_image hrun
  | lookup _ => exact nomatch he
  | definition _ => exact nomatch he
  | other _ => exact nomatch he

-- ── Owners ──────────────────────────────────────────────────────────────────

/-- Every cell has the owner that it had. -/
def KeepsOwners (s t : Session) : Prop :=
  ∀ x cell, s.memory.lookup x = some cell → ∃ value, t.memory.lookup x = some ⟨value, cell.owner⟩

namespace KeepsOwners

theorem refl (s : Session) : s.KeepsOwners s := fun _ cell h => ⟨cell.value, h⟩

theorem trans (r s t : Session) (h : r.KeepsOwners s) (h' : s.KeepsOwners t) : r.KeepsOwners t := by
  intro x cell hcell
  obtain ⟨value, hs⟩ := h x cell hcell
  exact h' x ⟨value, cell.owner⟩ hs

/-- A write overwrites only what its owner owns. -/
theorem of_writes {s t : Session} {address value : Number} {owner : String}
    {answer : Except Fault Unit} (h : s.Writes address value owner answer t) : s.KeepsOwners t := by
  cases h with
  | refused fault => exact refl s
  | @done w _ hcheck hadmits hmemory =>
      intro x cell hcell
      rw [hmemory, Image.lookup_put]
      by_cases hx : x = .ofAddress w.address
      · have howner : cell.owner = w.cell.owner := by
          obtain ⟨a, ha, hcell⟩ := Image.lookup_eq_some_iff.mp hcell
          have haddress : a = w.address :=
            UInt16.toNat_inj.mp (Number.ofNat_injective (ha.symm.trans hx))
          rw [haddress] at hcell
          exact hadmits cell hcell
        rw [if_pos hx, howner]
        exact ⟨w.cell.value, rfl⟩
      · rw [if_neg hx]
        exact ⟨cell.value, hcell⟩

theorem step (s : Session) (e : Event) (t : Session) (h : s.Step e t) : s.KeepsOwners t := by
  rcases h.cells_or_writes with hcells | ⟨address, value, owner, answer, -, hwrites⟩
  · intro x cell hcell
    rw [Image.lookup_of_cells hcells]
    exact ⟨cell.value, hcell⟩
  · exact of_writes hwrites

/-- Owners are kept by any sequence of operations. -/
theorem of_reaches {s t : Session} (h : s.Reaches t) : s.KeepsOwners t :=
  h.induct refl trans step

end KeepsOwners

/-- A write that succeeds is of a byte at an address, and leaves the byte to its owner. -/
theorem Writes.of_ok {s t : Session} {address value : Number} {owner : String}
    (h : s.Writes address value owner (.ok ()) t) :
    ∃ a b, address = .ofAddress a ∧ value = .ofByte b ∧
      t.memory.lookup address = some ⟨b, owner⟩ ∧
      ∀ y, y ≠ address → t.memory.lookup y = s.memory.lookup y := by
  cases h with
  | @done w _ hcheck hadmits hmemory =>
      obtain ⟨b, ha, hb, hcell⟩ := Image.checkWrite_eq_ok hcheck
      have haddress := Number.toAddress?_eq_some_iff.mp ha
      refine ⟨w.address, b, haddress, Number.toByte?_eq_some_iff.mp hb, ?_, ?_⟩
      · rw [hmemory, Image.lookup_put, if_pos haddress, hcell]
      · intro y hy
        rw [hmemory, Image.lookup_put, if_neg (fun h => hy (h.trans haddress.symm))]

/-- What was written on the way belongs to its writer in the end. -/
theorem Path.owner_of_write {s t : Session} {es : List Event} (h : s.Path es t) {x v : Number}
    {owner : String} (hwrite : .write x v owner (.ok ()) ∈ es) :
    ∃ value, t.memory.lookup x = some ⟨value, owner⟩ := by
  obtain ⟨before, after, rfl⟩ := List.append_of_mem hwrite
  obtain ⟨u, u', -, hstep, hafter⟩ := h.parted
  obtain ⟨a, b, -, -, hcell, -⟩ := hstep.writes.of_ok
  exact KeepsOwners.of_reaches ⟨after, hafter⟩ x _ hcell

end Session

-- ── All programs ────────────────────────────────────────────────────────────

/-- Programs, in one pass or in both, are sequences of operations. Along any such sequence, from any
    session, cells keep their owners; cells lie at addresses and hold bytes; a write that fails changes
    nothing, and one that succeeds changes the cell it names alone; and whoever writes the same address
    is the same owner. -/
theorem ownership_is_permanent :
    (∀ (catalogue : Catalogue) (commands : List Command) (s : Session),
      s.Reaches ((catalogue.runAll commands).exec s).2 ∧
      s.Reaches ((Assembly.bothPasses (catalogue.runAll commands)).exec s).2) ∧
    ∀ (s t : Session) (es : List Event), s.Path es t →
      (∀ x cell, s.memory.lookup x = some cell →
        ∃ value, t.memory.lookup x = some ⟨value, cell.owner⟩) ∧
      (∀ x cell, t.memory.lookup x = some cell →
        ∃ n b : Nat, n ≤ 65535 ∧ b ≤ 255 ∧ x = .ofNat n ∧ Number.ofByte cell.value = .ofNat b) ∧
      (∀ before x v owner answer after, es = before ++ .write x v owner answer :: after →
        ∃ u u', s.Path before u ∧ u'.Path after t ∧
          ((∃ fault, answer = .error fault) ∧ u' = u ∨
            answer = .ok () ∧ ∃ b, v = .ofByte b ∧ u'.memory.lookup x = some ⟨b, owner⟩ ∧
              ∀ y, y ≠ x → u'.memory.lookup y = u.memory.lookup y)) ∧
      (∀ x v owner v' owner', Event.write x v owner (.ok ()) ∈ es →
        Event.write x v' owner' (.ok ()) ∈ es → owner = owner') := by
  refine ⟨fun catalogue commands s => ?_, fun s t es h => ⟨?_, ?_, ?_, ?_⟩⟩
  · have hperforms := Assembly.Performs.runAll catalogue commands
    exact ⟨hperforms s, hperforms.bothPasses s⟩
  · exact Session.KeepsOwners.of_reaches ⟨es, h⟩
  · intro x cell hcell
    obtain ⟨a, rfl, -⟩ := Image.lookup_eq_some_iff.mp hcell
    have ha := a.toNat_lt
    have hb := cell.value.toNat_lt
    exact ⟨a.toNat, cell.value.toNat, by omega, by omega, rfl, rfl⟩
  · rintro before x v owner answer after rfl
    obtain ⟨u, u', hbefore, hstep, hafter⟩ := h.parted
    refine ⟨u, u', hbefore, hafter, ?_⟩
    have hwrites := hstep.writes
    cases answer with
    | ok _ =>
        obtain ⟨a, b, -, hb, hcell, hothers⟩ := hwrites.of_ok
        exact Or.inr ⟨rfl, b, hb, hcell, hothers⟩
    | error fault =>
        cases hwrites
        exact Or.inl ⟨⟨fault, rfl⟩, rfl⟩
  · intro x v owner v' owner' hwrite hwrite'
    obtain ⟨value, hcell⟩ := h.owner_of_write hwrite
    obtain ⟨value', hcell'⟩ := h.owner_of_write hwrite'
    rw [hcell] at hcell'
    exact congrArg Cell.owner (Option.some.inj hcell')

/-- Three writes of one cell: by an owner, by another, who is refused, and by the first again. -/
def contestedWrites : List Event :=
  [.write 0x1000 1 "main" (.ok ()),
    .write 0x1000 2 "other" (.error (.ownershipConflict 0x1000 "main" "other")),
    .write 0x1000 3 "main" (.ok ())]

/-- The session after `contestedWrites`. -/
def contestedSession : Session :=
  (Source.plainSession.stored ⟨0x1000, 1, "main"⟩).stored ⟨0x1000, 3, "main"⟩

theorem contested_cell_keeps_its_owner :
    Source.plainSession.Path contestedWrites contestedSession ∧
    (∀ x cell, Source.plainSession.memory.lookup x = some cell →
      ∃ value, contestedSession.memory.lookup x = some ⟨value, cell.owner⟩) ∧
    contestedSession.memory.lookup 0x1000 = some ⟨3, "main"⟩ ∧
    ∀ v owner, Event.write 0x1000 v owner (.ok ()) ∈ contestedWrites → owner = "main" := by
  have hrefused : (Assembly.onMemory (MemoryCommand.run (.write 0x1000 2 "other"))).exec
      (Source.plainSession.stored ⟨0x1000, 1, "main"⟩) =
      (.error (.ownershipConflict 0x1000 "main" "other"),
        Source.plainSession.stored ⟨0x1000, 1, "main"⟩) := rfl
  have hpath : Source.plainSession.Path contestedWrites contestedSession :=
    .cons (.store rfl) (.cons (.write hrefused) (.cons (.store rfl) (.nil _)))
  obtain ⟨hkept, -, -, hsame⟩ := ownership_is_permanent.2 _ _ _ hpath
  refine ⟨hpath, hkept, by decide +kernel, fun v owner hwrite => ?_⟩
  exact hsame 0x1000 v owner 1 "main" hwrite (List.mem_cons_self ..)

end Asm6502
