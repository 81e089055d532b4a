import Asm6502.Proofs.Evaluation
import Asm6502.Source.Program

/-!
# What the basic steps do

Evaluating, writing and defining are the steps that everything in a source program is made of. For each
there is one equation that tells its outcome and the session it leaves; later proofs use these equations
and do not open the steps again.

`Session.Leads` then says once what any statement can do to a session: pass, start and registers stay,
labels are kept unless they drift, what was written stays written and owned.
-/

namespace Asm6502

open Asm6502.Action (Moves)

-- ── Memory ──────────────────────────────────────────────────────────────────

namespace Image

/-- Whether a write meets a free cell or a cell of its owner. -/
def Admits (m : Image) (w : Write) : Prop :=
  ∀ cell, m.cell? w.address = some cell → cell.owner = w.cell.owner

/-- The image with a cell put in place. -/
def put (m : Image) (w : Write) : Image := { m with cells := m.cells.insert w.address w.cell }

theorem cell?_put (m : Image) (w : Write) (a : UInt16) :
    (m.put w).cell? a = if w.address = a then some w.cell else m.cell? a :=
  cell?_insert m w.address a w.cell

theorem store_of_admits {m : Image} {w : Write} (h : m.Admits w) : m.store w = .ok (m.put w) := by
  unfold store
  split
  · rename_i cell hcell
    rw [if_pos (h cell hcell)]
    rfl
  · rfl

theorem store_eq_ok {m m' : Image} {w : Write} (h : m.store w = .ok m') :
    m.Admits w ∧ m' = m.put w := by
  unfold store at h
  split at h
  · rename_i cell hcell
    split at h
    · rename_i howner
      refine ⟨fun other hother => ?_, (Except.ok.inj h).symm⟩
      rw [hcell] at hother
      rw [← Option.some.inj hother]
      exact howner
    · exact nomatch h
  · rename_i hfree
    refine ⟨fun other hother => ?_, (Except.ok.inj h).symm⟩
    rw [hfree] at hother
    exact nomatch hother

theorem checkWrite_eq_ok {address value : Number} {owner : String} {w : Write}
    (h : checkWrite address value owner = .ok w) :
    ∃ b, address.toAddress? = some w.address ∧ value.toByte? = some b ∧ w.cell = ⟨b, owner⟩ := by
  unfold checkWrite checkAddress checkByte at h
  cases ha : address.toAddress? with
  | none => rw [ha] at h; exact nomatch h
  | some a =>
      rw [ha] at h
      cases hb : value.toByte? with
      | none => rw [hb] at h; exact nomatch h
      | some b =>
          rw [hb] at h
          rw [← Except.ok.inj h]
          exact ⟨b, rfl, rfl, rfl⟩

theorem checkWrite_of {address value : Number} {a : UInt16} {b : UInt8} (owner : String)
    (ha : address.toAddress? = some a) (hb : value.toByte? = some b) :
    checkWrite address value owner = .ok ⟨a, b, owner⟩ := by
  unfold checkWrite checkAddress checkByte
  rw [ha, hb]
  rfl

end Image

-- ── Sessions ────────────────────────────────────────────────────────────────

namespace Session

/-- The value of an operand where a session stands. -/
def value (s : Session) (o : Operand) : Except Fault Value :=
  o.valueIn (s.symbols.lookup s.pass) s.cursor.position

/-- The session after the names of an operand were used. -/
def used (s : Session) (o : Operand) : Session :=
  { s with symbols := o.names.foldl (Symbols.use s.pass s.cursor.position) s.symbols }

/-- The session after a write. -/
def stored (s : Session) (w : Write) : Session :=
  { s with memory := s.memory.put w, written := w :: s.written }

/-- The session after a write at the cursor. -/
def put (s : Session) (w : Write) : Session :=
  { s with memory := s.memory.put w, written := w :: s.written, cursor := s.cursor.advance 1 }

/-- Names used leave everything but the references. -/
theorem used_eq (s : Session) (o : Operand) :
    ∃ references, s.used o = { s with symbols := { s.symbols with references } } := by
  unfold used
  generalize o.names = names
  have h : ∀ (names : List String) (symbols : Symbols), ∃ references,
      names.foldl (Symbols.use s.pass s.cursor.position) symbols = { symbols with references } := by
    intro names
    induction names with
    | nil => exact fun symbols => ⟨symbols.references, rfl⟩
    | cons n rest ih =>
        intro symbols
        obtain ⟨references, hn⟩ := Symbols.use_eq s.pass s.cursor.position symbols n
        obtain ⟨references', hrest⟩ := ih { symbols with references }
        refine ⟨references', ?_⟩
        rw [List.foldl_cons, hn, hrest]
  obtain ⟨references, hr⟩ := h names s.symbols
  exact ⟨references, by rw [hr]⟩

end Session

namespace Assembly

/-- A step on the symbol table leaves the rest of the session. -/
theorem exec_onSymbols {α : Type} {action : Action Symbols α} {s : Session} {r : Except Fault α}
    {symbols : Symbols} (h : action.exec s.symbols = (r, symbols)) :
    (onSymbols action).exec s = (r, { s with symbols }) := by
  unfold onSymbols
  rw [Action.exec_onPart, h]

theorem exec_resolve (name : String) (s : Session) :
    ∃ references, (resolve name).exec s =
      (s.symbols.lookup s.pass name, { s with symbols := { s.symbols with references } }) := by
  have hrun := Symbols.exec_resolve s.pass s.cursor.position name s.symbols
  obtain ⟨references, huse⟩ := s.symbols.use_eq s.pass s.cursor.position name
  rw [huse] at hrun
  exact ⟨references, exec_onSymbols hrun⟩

theorem exec_label (name : String) (address : Option Number) (s : Session) :
    (label name address).exec s =
      (((Symbols.define s.pass name (address.getD s.cursor.position)).exec s.symbols).1,
        { s with
          symbols := ((Symbols.define s.pass name (address.getD s.cursor.position)).exec s.symbols).2 }) :=
  exec_onSymbols rfl

theorem exec_evaluate (o : Operand) (s : Session) :
    ∃ references, (evaluate o).exec s =
      (s.value o, { s with symbols := { s.symbols with references } }) := by
  have hreads := o.reads_evaluate s.pass s.cursor.position
  obtain ⟨references, hkeep⟩ := hreads.keeps s.symbols
  refine ⟨references, Prod.ext (hreads.outcome s.symbols) ?_⟩
  show { s with symbols := _ } = { s with symbols := _ }
  rw [← hkeep]
  rfl

theorem exec_evaluate_of_ok {o : Operand} {s : Session} {v : Value} (h : s.value o = .ok v) :
    (evaluate o).exec s = (.ok v, s.used o) := by
  have hreads := o.reads_evaluate s.pass s.cursor.position
  have hout := (hreads.outcome s.symbols).trans h
  refine Prod.ext hout ?_
  show { s with symbols := _ } = { s with symbols := _ }
  rw [← hreads.uses s.symbols v hout]
  rfl

theorem exec_evaluate_of_error {o : Operand} {s : Session} {e : Fault} (h : s.value o = .error e) :
    ∃ references, (evaluate o).exec s =
      (.error e, { s with symbols := { s.symbols with references } }) := by
  obtain ⟨references, hr⟩ := exec_evaluate o s
  exact ⟨references, by rw [hr, h]⟩

theorem exec_storeByte (address v : Number) (s : Session) :
    (storeByte address v).exec s =
      match Image.checkWrite address v s.owner with
      | .error e => (.error e, s)
      | .ok w => match s.memory.store w with
        | .error e => (.error e, s)
        | .ok _ => (.ok (), s.stored w) := by
  unfold storeByte
  cases hw : Image.checkWrite address v s.owner with
  | error e => simp [Action.exec_bind, hw]
  | ok w =>
      cases hm : s.memory.store w with
      | error e => simp [Action.exec_bind, hw, hm]
      | ok m =>
          rw [(Image.store_eq_ok hm).2] at hm
          simp [Action.exec_bind, hw, hm, Session.stored]

/-- A byte is stored where the place is an address, the value a byte and the cell free or owned. -/
theorem exec_storeByte_of {address v : Number} {s : Session} {w : Write}
    (hw : Image.checkWrite address v s.owner = .ok w) (ha : s.memory.Admits w) :
    (storeByte address v).exec s = (.ok (), s.stored w) := by
  simp only [exec_storeByte, hw, Image.store_of_admits ha]

/-- What becomes of a byte to be stored: it is written, or nothing happens. -/
theorem exec_storeByte_cases (address v : Number) (s : Session) :
    (∃ w, Image.checkWrite address v s.owner = .ok w ∧ s.memory.Admits w ∧
      (storeByte address v).exec s = (.ok (), s.stored w)) ∨
    ∃ fault, (storeByte address v).exec s = (.error fault, s) := by
  rw [exec_storeByte]
  cases hw : Image.checkWrite address v s.owner with
  | error e => exact Or.inr ⟨e, rfl⟩
  | ok w =>
      dsimp only
      cases hm : s.memory.store w with
      | error e => exact Or.inr ⟨e, rfl⟩
      | ok m => exact Or.inl ⟨w, rfl, (Image.store_eq_ok hm).1, rfl⟩

theorem exec_emitByte (v : Number) (s : Session) :
    (emitByte v).exec s =
      match Image.checkWrite s.cursor.position v s.owner with
      | .error e => (.error e, s)
      | .ok w => match s.memory.store w with
        | .error e => (.error e, s)
        | .ok _ => (.ok (), s.put w) := by
  have hposition : position.exec s = (.ok s.cursor.position, s) := rfl
  rw [emitByte, Action.exec_bind_of_ok hposition, Action.exec_bind, exec_storeByte]
  cases hw : Image.checkWrite s.cursor.position v s.owner with
  | error e => rfl
  | ok w =>
      dsimp only
      cases hm : s.memory.store w <;> rfl

/-- A byte is emitted where the cursor is an address, the value a byte and the cell free or owned. -/
theorem exec_emitByte_of {v : Number} {s : Session} {w : Write}
    (hw : Image.checkWrite s.cursor.position v s.owner = .ok w) (ha : s.memory.Admits w) :
    (emitByte v).exec s = (.ok (), s.put w) := by
  simp only [exec_emitByte, hw, Image.store_of_admits ha]

theorem exec_emitByte_eq_ok {v : Number} {s t : Session} (h : (emitByte v).exec s = (.ok (), t)) :
    ∃ w, Image.checkWrite s.cursor.position v s.owner = .ok w ∧ s.memory.Admits w ∧ t = s.put w := by
  rw [exec_emitByte] at h
  split at h
  · exact absurd (congrArg Prod.fst h) (by simp)
  · rename_i w hw
    split at h
    · exact absurd (congrArg Prod.fst h) (by simp)
    · rename_i m hm
      exact ⟨w, hw, (Image.store_eq_ok hm).1, (congrArg Prod.snd h).symm⟩

end Assembly

-- ── Labels ──────────────────────────────────────────────────────────────────

/-- Giving a key the value it has changes nothing. -/
theorem Table.insert_eq_self {κ ν : Type} [DecidableEq κ] {t : Table κ ν} {k : κ} {v : ν}
    (h : t.find? k = some v) : t.insert k v = t := by
  have hin : ∀ entries : List (κ × ν), findIn k entries = some v → insertIn k v entries = entries := by
    intro entries
    induction entries with
    | nil => exact fun h => nomatch h
    | cons entry rest ih =>
        obtain ⟨key, value⟩ := entry
        intro hfind
        by_cases hk : key = k
        · rw [findIn, if_pos hk] at hfind
          rw [insertIn, if_pos hk, Option.some.inj hfind]
        · rw [findIn, if_neg hk] at hfind
          rw [insertIn, if_neg hk, ih hfind]
  exact congrArg Table.mk (hin t.toList h)

namespace Symbols

/-- In discovery a definition is of a new name, and adds it. -/
theorem exec_define_discovery {name : String} {x : Number} {s s' : Symbols} {a : UInt16}
    (h : (define .discovery name x).exec s = (.ok a, s')) :
    x.toAddress? = some a ∧ s.labels.find? name = none ∧
      s' = { s with labels := s.labels.insert name a } := by
  unfold define checkAddress at h
  cases hx : x.toAddress? with
  | none => rw [hx] at h; exact nomatch congrArg Prod.fst h
  | some b =>
      rw [hx] at h
      cases hf : s.labels.find? name with
      | some existing =>
          simp [Action.exec_bind, hf] at h
      | none =>
          simp [Action.exec_bind, hf] at h
          obtain ⟨rfl, rfl⟩ := h
          exact ⟨rfl, rfl, rfl⟩

/-- What a definition that succeeds does in either pass: a label that has another address drifts. -/
theorem exec_define_eq_ok {pass : Pass} {name : String} {x : Number} {s s' : Symbols} {a : UInt16}
    (h : (define pass name x).exec s = (.ok a, s')) :
    x.toAddress? = some a ∧ s'.labels = s.labels.insert name a ∧
      (s.drifts <+: s'.drifts ∧ (pass = .discovery → s'.drifts = s.drifts)) ∧
      (pass = .discovery ∨ s'.drifts = [] → ∀ b, s.labels.find? name = some b → a = b) := by
  unfold define checkAddress at h
  cases hx : x.toAddress? with
  | none => rw [hx] at h; exact nomatch congrArg Prod.fst h
  | some c =>
      rw [hx] at h
      cases hf : s.labels.find? name with
      | none =>
          simp [Action.exec_bind, hf] at h
          obtain ⟨rfl, rfl⟩ := h
          exact ⟨rfl, rfl, ⟨List.prefix_refl _, fun _ => rfl⟩, fun _ _ hno => nomatch hno⟩
      | some existing =>
          cases pass with
          | discovery => simp [Action.exec_bind, hf] at h
          | final =>
              simp [Action.exec_bind, hf] at h
              obtain ⟨rfl, rfl⟩ := h
              refine ⟨rfl, rfl, ⟨?_, fun hno => nomatch hno⟩, ?_⟩
              · show s.drifts <+: if existing = c then s.drifts else _
                split
                · exact List.prefix_refl _
                · exact List.prefix_append ..
              · rintro (hno | hnone) b hb
                · exact nomatch hno
                · rw [← Option.some.inj hb]
                  by_contra hne
                  simp [Ne.symm hne] at hnone

/-- A definition that fails changes nothing. -/
theorem exec_define_eq_error {pass : Pass} {name : String} {x : Number} {s s' : Symbols} {e : Fault}
    (h : (define pass name x).exec s = (.error e, s')) : s' = s := by
  unfold define checkAddress at h
  cases hx : x.toAddress? with
  | none => rw [hx] at h; exact (congrArg Prod.snd h).symm
  | some a =>
      rw [hx] at h
      cases hf : s.labels.find? name with
      | some existing => cases pass <;> simp_all [Action.exec_bind]
      | none => simp [Action.exec_bind, hf] at h

/-- A definition is of no concern to pins. -/
theorem pins_define (pass : Pass) (name : String) (x : Number) (s : Symbols) :
    ((define pass name x).exec s).2.pins = s.pins := by
  unfold define checkAddress
  cases hx : x.toAddress? with
  | none => rfl
  | some a => cases hf : s.labels.find? name <;> cases pass <;> simp [Action.exec_bind, hf]

/-- In the final pass a definition that repeats discovery's changes nothing. -/
theorem exec_define_final {name : String} {x : Number} {s : Symbols} {a : UInt16}
    (hx : x.toAddress? = some a) (hf : s.labels.find? name = some a) :
    (define .final name x).exec s = (.ok a, s) := by
  unfold define checkAddress
  simp [Action.exec_bind, hx, hf, Table.insert_eq_self hf]

end Symbols

-- ── Where statements lead ───────────────────────────────────────────────────

namespace Session

/-- Everything written in this pass belongs to its writer. -/
def Owned (s : Session) : Prop :=
  ∀ w ∈ s.written, ∃ cell, s.memory.cell? w.address = some cell ∧ cell.owner = w.cell.owner

/-- What a statement can do to a session on the way. -/
structure Leads (s t : Session) : Prop where
  pass : t.pass = s.pass
  start : t.cursor.start = s.cursor.start
  registers : t.cursor.registers = s.cursor.registers
  labels : s.pass = .discovery ∨ t.symbols.drifts = [] → ∀ name a,
    s.symbols.labels.find? name = some a → t.symbols.labels.find? name = some a
  drifts : s.symbols.drifts <+: t.symbols.drifts
  still : s.pass = .discovery → t.symbols.drifts = s.symbols.drifts
  written : s.written <:+ t.written
  owned : s.Owned → t.Owned

namespace Leads

theorem refl (s : Session) : s.Leads s :=
  ⟨rfl, rfl, rfl, fun _ _ _ h => h, List.prefix_refl _, fun _ => rfl, List.suffix_refl _, fun h => h⟩

theorem trans (r s t : Session) (h : r.Leads s) (h' : s.Leads t) : r.Leads t where
  pass := h'.pass.trans h.pass
  start := h'.start.trans h.start
  registers := h'.registers.trans h.registers
  labels hp name a hr := by
    rcases hp with hp | hp
    · exact h'.labels (Or.inl (h.pass.trans hp)) name a (h.labels (Or.inl hp) name a hr)
    · have hs : s.symbols.drifts = [] := by
        have := h'.drifts
        rw [hp] at this
        exact List.prefix_nil.mp this
      exact h'.labels (Or.inr hp) name a (h.labels (Or.inr hs) name a hr)
  drifts := h.drifts.trans h'.drifts
  still hp := (h'.still (h.pass.trans hp)).trans (h.still hp)
  written := h.written.trans h'.written
  owned ho := h'.owned (h.owned ho)

/-- A change of the symbols that keeps labels and drifts. -/
theorem of_symbols (s : Session) {symbols : Symbols} (hlabels : symbols.labels = s.symbols.labels)
    (hdrifts : symbols.drifts = s.symbols.drifts) : s.Leads { s with symbols } :=
  ⟨rfl, rfl, rfl, fun _ _ _ h => by rw [hlabels]; exact h, hdrifts ▸ List.prefix_refl _,
    fun _ => hdrifts, List.suffix_refl _, fun h => h⟩

/-- A move of the cursor. -/
theorem of_position (s : Session) (position : Number) :
    s.Leads { s with cursor := { s.cursor with position } } :=
  ⟨rfl, rfl, rfl, fun _ _ _ h => h, List.prefix_refl _, fun _ => rfl, List.suffix_refl _, fun h => h⟩

/-- A write to a cell that is free or belongs to the writer. -/
theorem stored (s : Session) {w : Write} (hadmits : s.memory.Admits w) : s.Leads (s.stored w) where
  pass := rfl
  start := rfl
  registers := rfl
  labels _ _ _ h := h
  drifts := List.prefix_refl _
  still _ := rfl
  written := List.suffix_cons w s.written
  owned ho := by
    intro w' hw'
    show ∃ cell, (s.memory.put w).cell? w'.address = some cell ∧ cell.owner = w'.cell.owner
    rw [Image.cell?_put]
    rcases List.mem_cons.mp hw' with rfl | hmem
    · rw [if_pos rfl]
      exact ⟨w'.cell, rfl, rfl⟩
    · obtain ⟨cell, hcell, howner⟩ := ho w' hmem
      by_cases ha : w.address = w'.address
      · rw [if_pos ha]
        rw [← ha] at hcell
        exact ⟨w.cell, rfl, (hadmits cell hcell).symm.trans howner⟩
      · rw [if_neg ha]
        exact ⟨cell, hcell, howner⟩

end Leads

end Session

end Asm6502
