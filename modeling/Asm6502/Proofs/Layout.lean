import Asm6502.Proofs.Exactness
import Asm6502.Proofs.TwoPasses

/-!
# Where bytes come to lie

Statements other than directives write one byte after another, from where the cursor stands. So what a
program without directives makes is an unbroken block of memory.

* `Session.Emits`: from one session to another some bytes were written, without a gap.
* `Assembly.emits_each`: values that are emitted are bytes, and come to lie one behind the other.
* `Session.bytes_result`: if both passes write blocks of one size, the result is the block of the final pass.
-/

namespace Asm6502

-- ── Blocks ──────────────────────────────────────────────────────────────────

/-- The cell that a block of bytes from a place on puts at an address, if any. -/
def laid (place : Nat) (bytes : List UInt8) (owner : String) (a : UInt16) : Option Cell :=
  if place ≤ a.toNat then bytes[a.toNat - place]?.map (⟨·, owner⟩) else none

theorem laid_nil (place : Nat) (owner : String) (a : UInt16) : laid place [] owner a = none := by
  unfold laid
  split <;> rfl

theorem laid_append (place : Nat) (bytes more : List UInt8) (owner : String) (a : UInt16) :
    laid place (bytes ++ more) owner a =
      (laid (place + bytes.length) more owner a).or (laid place bytes owner a) := by
  unfold laid
  by_cases hplace : place ≤ a.toNat
  · by_cases hmore : place + bytes.length ≤ a.toNat
    · rw [if_pos hplace, if_pos hmore, if_pos hplace, List.getElem?_append_right (by omega),
        List.getElem?_eq_none (l := bytes) (by omega), Option.map_none, Option.or_none, Nat.sub_add_eq]
    · rw [if_pos hplace, if_neg hmore, if_pos hplace, List.getElem?_append_left (by omega),
        Option.none_or]
  · rw [if_neg hplace, if_neg (by omega), if_neg hplace]
    rfl

theorem laid_singleton {place : Nat} {a : UInt16} (h : place = a.toNat) (b : UInt8) (owner : String)
    (a' : UInt16) : laid place [b] owner a' = if a = a' then some ⟨b, owner⟩ else none := by
  subst h
  unfold laid
  by_cases heq : a = a'
  · subst heq
    simp
  · have hne : a.toNat ≠ a'.toNat := fun h => heq (UInt16.toNat_inj.mp h)
    rw [if_neg heq]
    split
    · rw [List.getElem?_eq_none (by rw [List.length_singleton]; omega)]
      rfl
    · rfl

/-- Whether a block covers an address depends on its size alone. -/
theorem laid_eq_none_iff (place : Nat) (bytes : List UInt8) (owner : String) (a : UInt16) :
    laid place bytes owner a = none ↔ a.toNat < place ∨ place + bytes.length ≤ a.toNat := by
  unfold laid
  split
  · rw [Option.map_eq_none_iff, List.getElem?_eq_none_iff]
    omega
  · exact ⟨fun _ => Or.inl (by omega), fun _ => rfl⟩

-- ── Sessions that emit ──────────────────────────────────────────────────────

/-- From `s` to `t` bytes were written one after another, the first one at `place`. -/
structure Session.Emits (place : Nat) (s : Session) (bytes : List UInt8) (t : Session) : Prop where
  before : s.cursor.position = .ofNat place
  after : t.cursor.position = .ofNat (place + bytes.length)
  fits : place + bytes.length ≤ 65536
  cells : ∀ a, t.memory.cell? a = (laid place bytes s.owner a).or (s.memory.cell? a)
  start : t.memory.start = s.memory.start
  finish : t.memory.finish = s.memory.finish
  owner : t.owner = s.owner

namespace Session.Emits

/-- Nothing is written where neither cursor nor memory change. -/
theorem nil {place : Nat} {s t : Session} (hplace : s.cursor.position = .ofNat place)
    (hfits : place ≤ 65536) (hcursor : t.cursor = s.cursor) (hmemory : t.memory = s.memory)
    (howner : t.owner = s.owner) : s.Emits place [] t where
  before := hplace
  after := by rw [hcursor]; exact hplace
  fits := hfits
  cells a := by rw [laid_nil, Option.none_or, hmemory]
  start := by rw [hmemory]
  finish := by rw [hmemory]
  owner := howner

theorem trans {place : Nat} {r s t : Session} {bytes more : List UInt8} (h : r.Emits place bytes s)
    (h' : s.Emits (place + bytes.length) more t) : r.Emits place (bytes ++ more) t where
  before := h.before
  after := by rw [h'.after, List.length_append, Nat.add_assoc]
  fits := by
    have := h'.fits
    rw [List.length_append]
    omega
  cells a := by rw [h'.cells, h.cells, h.owner, laid_append, Option.or_assoc]
  start := h'.start.trans h.start
  finish := h'.finish.trans h.finish
  owner := h'.owner.trans h.owner

end Session.Emits

namespace Assembly

/-- A value that is emitted is a byte, and comes to lie at the cursor. -/
theorem emits_emitByte {v : Number} {s t : Session} {place : Nat}
    (hplace : s.cursor.position = .ofNat place) (h : (emitByte v).exec s = (.ok (), t)) :
    ∃ b, v = .ofByte b ∧ s.Emits place [b] t := by
  obtain ⟨w, hw, -, rfl⟩ := exec_emitByte_eq_ok h
  obtain ⟨b, haddress, hbyte, hcell⟩ := Image.checkWrite_eq_ok hw
  have hat : place = w.address.toNat := by
    rw [hplace, Number.toAddress?_eq_some_iff] at haddress
    exact Number.ofNat_injective haddress
  have hlt := w.address.toNat_lt
  refine ⟨b, Number.toByte?_eq_some_iff.mp hbyte, ?_⟩
  exact
    { before := hplace
      after := by
        show s.cursor.position + 1 = .ofNat (place + 1)
        rw [hplace]
        exact Number.ofNat_add (b := 1) (by unfold Number.exactLimit; omega)
      fits := by rw [List.length_singleton]; omega
      cells := by
        intro a
        show (s.memory.put w).cell? a = _
        rw [Image.cell?_put, laid_singleton hat, hcell]
        split <;> rfl
      start := rfl
      finish := rfl
      owner := rfl }

/-- Values that are emitted are bytes, and come to lie one behind the other. -/
theorem emits_each {values : List Number} {s t : Session} {place : Nat}
    (hplace : s.cursor.position = .ofNat place) (hfits : place ≤ 65536)
    (h : (Action.each emitByte values).exec s = (.ok (), t)) :
    ∃ bytes, values = bytes.map .ofByte ∧ s.Emits place bytes t := by
  induction values generalizing s place with
  | nil =>
      obtain rfl : s = t := congrArg Prod.snd h
      exact ⟨[], rfl, .nil hplace hfits rfl rfl rfl⟩
  | cons v rest ih =>
      obtain ⟨_, s', hv, hrest⟩ := Action.exec_bind_eq_ok h
      obtain ⟨b, rfl, hb⟩ := emits_emitByte hplace hv
      obtain ⟨bytes, rfl, hbytes⟩ := ih hb.after hb.fits hrest
      exact ⟨b :: bytes, rfl, hb.trans hbytes⟩

end Assembly

-- ── What is exported ────────────────────────────────────────────────────────

namespace Image

theorem writtenRange_of_none {m : Image} (h : ∀ a, m.cell? a = none) : m.writtenRange = none := by
  have hempty : m.cells = ∅ := Std.ExtTreeMap.ext_getElem? (fun {a} => by
    rw [Std.ExtTreeMap.getElem?_empty]
    exact h a)
  unfold writtenRange
  rw [hempty, Std.ExtTreeMap.minKey?_empty]

theorem writtenRange_of_last {m : Image} {last : UInt16} (hlast : (m.cell? last).isSome = true)
    (hall : ∀ a, (m.cell? a).isSome = true → a ≤ last) :
    ∃ first, m.writtenRange = some (first, last) := by
  have hmax : m.cells.maxKey? = some last := by
    rw [Std.ExtTreeMap.maxKey?_eq_some_iff_mem_and_forall]
    refine ⟨Std.ExtTreeMap.mem_iff_isSome_getElem?.mpr hlast, fun a ha => ?_⟩
    rw [Std.isLE_compare]
    exact hall a (Std.ExtTreeMap.mem_iff_isSome_getElem?.mp ha)
  cases hmin : m.cells.minKey? with
  | none =>
      rw [Std.ExtTreeMap.minKey?_eq_none_iff] at hmin
      rw [hmin, Std.ExtTreeMap.maxKey?_empty] at hmax
      exact nomatch hmax
  | some first =>
      refine ⟨first, ?_⟩
      unfold writtenRange
      rw [hmin, hmax]

/-- The byte at a place: that of the cell which is written there, or zero. -/
def byteAt (m : Image) (place : Nat) : UInt8 := ((m.lookup (.ofNat place)).map (·.value)).getD 0

theorem byteAt_of_cell {m : Image} {a : UInt16} {cell : Cell} (h : m.cell? a = some cell) :
    m.byteAt a.toNat = cell.value := by
  have hlookup : m.lookup (.ofNat a.toNat) = some cell := by
    rw [lookup, show (Number.ofNat a.toNat).toAddress? = some a from Number.toAddress?_ofAddress a]
    exact h
  rw [byteAt, hlookup]
  rfl

/-- A range has its bytes in order, as many as lie between its ends. -/
theorem slice_eq (m : Image) (start : UInt16) {finish : Int} (hlow : -1 ≤ finish)
    (hhigh : finish ≤ 65535) :
    m.slice (.ofAddress start) (.ofInt finish) =
      (List.range (finish - start.toNat + 1).toNat).map (fun i => m.byteAt (start.toNat + i)) := by
  have hlt := start.toNat_lt
  have hcount : (Number.ofInt finish - Number.ofAddress start + 1).truncate.toNat =
      (finish - start.toNat + 1).toNat := by
    rw [Number.ofAddress, Number.ofNat_eq_ofInt,
      Number.ofInt_sub (by unfold Number.exactLimit; omega), show (1 : Number) = Number.ofInt 1 from rfl,
      Number.ofInt_add (by unfold Number.exactLimit; omega), Number.truncate_ofInt]
  unfold slice
  rw [hcount]
  refine List.map_congr_left (fun i hi => ?_)
  have hi := List.mem_range.mp hi
  rw [Number.ofAddress, Number.ofNat_add (by unfold Number.exactLimit; omega), byteAt]
  cases m.lookup (.ofNat (start.toNat + i)) <;> rfl

/-- The bytes of a block are what is read where it lies. -/
theorem slice_of_laid {m : Image} {start : UInt16} {bytes : List UInt8} {owner : String}
    (hfits : start.toNat + bytes.length ≤ 65536)
    (hcells : ∀ a cell, laid start.toNat bytes owner a = some cell → m.cell? a = some cell) :
    m.slice (.ofAddress start) (.ofInt ((start.toNat : Int) + bytes.length - 1)) = bytes := by
  rw [slice_eq m start (by omega) (by omega)]
  refine List.ext_getElem (by simp; omega) (fun i hi hi' => ?_)
  rw [List.getElem_map, List.getElem_range]
  have hplace : (UInt16.ofNat (start.toNat + i)).toNat = start.toNat + i := by
    rw [UInt16.toNat_ofNat', Nat.mod_eq_of_lt (by omega)]
  have hlaid : laid start.toNat bytes owner (UInt16.ofNat (start.toNat + i)) =
      some ⟨bytes.get ⟨i, hi'⟩, owner⟩ := by
    unfold laid
    rw [hplace, if_pos (by omega), Nat.add_sub_cancel_left, List.getElem?_eq_getElem hi']
    rfl
  rw [← hplace, byteAt_of_cell (hcells _ _ hlaid)]
  rfl

end Image

namespace Session

/-- A block in memory that begins at the start of the export is exported as a whole, and nothing else. -/
theorem bytes_result_of_laid {s : Session} {start : UInt16} {bytes : List UInt8} {owner : String}
    (hstart : s.memory.start = some start) (hfinish : s.memory.finish = none)
    (hfits : start.toNat + bytes.length ≤ 65536)
    (hcells : ∀ a, s.memory.cell? a = laid start.toNat bytes owner a)
    (discovery final : PassStatistics) :
    (s.result discovery final).start = start ∧ (s.result discovery final).bytes = bytes := by
  have hexport : s.exportStart = start := by
    unfold exportStart
    rw [hstart]
    rfl
  have hlast : s.exportFinish = (start.toNat : Int) + bytes.length - 1 := by
    unfold exportFinish
    rw [hfinish, hexport]
    simp only
    by_cases hnone : bytes = []
    · rw [Image.writtenRange_of_none (fun a => by rw [hcells, hnone, laid_nil]), hnone]
      simp
    · have hpos : 0 < bytes.length := List.length_pos_iff.mpr hnone
      have hat : (UInt16.ofNat (start.toNat + bytes.length - 1)).toNat =
          start.toNat + bytes.length - 1 := by
        rw [UInt16.toNat_ofNat', Nat.mod_eq_of_lt (by omega)]
      have hsome : ∀ a, (s.memory.cell? a).isSome = true ↔
          start.toNat ≤ a.toNat ∧ a.toNat < start.toNat + bytes.length := by
        intro a
        rw [hcells, ← Option.ne_none_iff_isSome, Ne, laid_eq_none_iff]
        omega
      have hend : (s.memory.cell? (UInt16.ofNat (start.toNat + bytes.length - 1))).isSome = true :=
        (hsome _).mpr (by omega)
      obtain ⟨first, hrange⟩ := Image.writtenRange_of_last hend (fun a ha => by
        rw [UInt16.le_iff_toNat_le, hat]
        have := (hsome a).mp ha
        omega)
      rw [hrange]
      simp only [hat]
      omega
  refine ⟨hexport, ?_⟩
  show s.memory.slice (.ofAddress s.exportStart) (.ofInt s.exportFinish) = bytes
  rw [hexport, hlast]
  exact Image.slice_of_laid hfits (fun a cell hcell => by rw [hcells, hcell])

end Session

-- ── Statements without directives ───────────────────────────────────────────

namespace Source

/-- Whether a statement is a directive. -/
def Statement.isDirective (st : Statement) : Bool :=
  match st.body with
  | .directive _ _ => true
  | _ => false

/-- A definition leaves cursor and memory alone. -/
theorem emits_nil_of_label {name : String} {address : Option Number} {s t : Session} {place : Nat}
    (hplace : s.cursor.position = .ofNat place) (hfits : place ≤ 65536)
    (h : (do let _ ← Assembly.label name address : Assembly Unit).exec s = (.ok (), t)) :
    s.Emits place [] t := by
  obtain ⟨a, s', hlabel, hend⟩ := Action.exec_bind_eq_ok h
  obtain rfl : s' = t := congrArg Prod.snd hend
  unfold Assembly.label at hlabel
  rw [Action.exec_bind_of_ok (Action.exec_get s), Assembly.onSymbols, Action.exec_onPart] at hlabel
  rw [← show _ = s' from congrArg Prod.snd hlabel]
  exact .nil hplace hfits rfl rfl rfl

/-- A number that had to be known and was leaves all but the references alone. -/
theorem exec_known_eq_ok {o : Operand} {subject : Subject} {s t : Session} {x : Number}
    (h : (known o subject).exec s = (.ok x, t)) :
    s.value o = .ok ⟨x, false⟩ ∧ ∃ references, t = { s with symbols := { s.symbols with references } } := by
  obtain ⟨v, s', hv, hrest⟩ := Action.exec_bind_eq_ok h
  obtain ⟨references, heval⟩ := Assembly.exec_evaluate o s
  rw [heval] at hv
  obtain ⟨hvalue, rfl⟩ := Prod.mk.inj hv
  cases hp : v.pending with
  | true =>
      rw [hp] at hrest
      exact nomatch congrArg Prod.fst hrest
  | false =>
      rw [hp] at hrest
      obtain ⟨hx, rfl⟩ := Prod.mk.inj hrest
      refine ⟨?_, references, rfl⟩
      rw [hvalue, ← Except.ok.inj hx, ← hp]

/-- A statement that is no directive emits the encoding of an instruction, or nothing. -/
theorem emits_run {st : Statement} {s t : Session} {place : Nat} (hcode : st.isDirective = false)
    (hplace : s.cursor.position = .ofNat place) (hfits : place ≤ 65536)
    (h : st.run.exec s = (.ok (), t)) :
    (∃ m operand e bytes, st.body = .instruction m operand ∧ s.encode m operand = .ok e ∧
      e.bytes = bytes.map .ofByte ∧ s.Emits place bytes t) ∨
    (st.isInstruction = false ∧ s.Emits place [] t) := by
  rw [exec_run_eq_ok] at h
  unfold Statement.isDirective at hcode
  unfold Statement.isInstruction
  cases hb : st.body with
  | directive d args => rw [hb] at hcode; exact nomatch hcode
  | label name =>
      rw [hb] at h
      exact Or.inr ⟨rfl, emits_nil_of_label hplace hfits h⟩
  | assignment name o =>
      rw [hb] at h
      obtain ⟨address, s', hknown, hlabel⟩ := Action.exec_bind_eq_ok h
      obtain ⟨-, references, rfl⟩ := exec_known_eq_ok hknown
      refine Or.inr ⟨rfl, ?_⟩
      have hlater := emits_nil_of_label (by exact hplace) hfits hlabel
      exact { hlater with }
  | instruction m operand =>
      rw [hb] at h
      obtain ⟨e, he, hrest⟩ := exec_instruction_eq_ok h
      obtain ⟨references, hencoded⟩ := s.encoded_eq m e operand
      obtain ⟨_, s', heach, hcount⟩ := Action.exec_bind_eq_ok hrest
      rw [hencoded] at heach
      obtain ⟨bytes, hbytes, hemits⟩ := Assembly.emits_each (by exact hplace) hfits heach
      refine Or.inl ⟨m, operand, e, bytes, rfl, he, hbytes, ?_⟩
      rw [← show _ = t from congrArg Prod.snd hcount]
      exact { hemits with }

/-- Statements without directives write a block. -/
theorem emits_runAll {statements : List Statement} {s t : Session} {place : Nat}
    (hcode : ∀ st ∈ statements, st.isDirective = false) (hplace : s.cursor.position = .ofNat place)
    (hfits : place ≤ 65536) (h : (runAll statements).exec s = (.ok (), t)) :
    ∃ bytes, s.Emits place bytes t := by
  induction statements generalizing s place with
  | nil =>
      obtain rfl : s = t := congrArg Prod.snd h
      exact ⟨[], .nil hplace hfits rfl rfl rfl⟩
  | cons st rest ih =>
      obtain ⟨_, s', hst, hrest⟩ := Action.exec_bind_eq_ok h
      have hfirst : ∃ bytes, s.Emits place bytes s' := by
        rcases emits_run (hcode st (List.mem_cons_self ..)) hplace hfits hst with
          ⟨_, _, _, bytes, -, -, -, hemits⟩ | ⟨-, hemits⟩
        · exact ⟨bytes, hemits⟩
        · exact ⟨[], hemits⟩
      obtain ⟨bytes, hbytes⟩ := hfirst
      obtain ⟨more, hmore⟩ := ih (fun st' h' => hcode st' (List.mem_cons_of_mem _ h')) hbytes.after
        hbytes.fits hrest
      exact ⟨bytes ++ more, hbytes.trans hmore⟩

/-- Where a session begins that is given neither an end nor a cursor nor memory. -/
theorem begins_of_create {options : Options} {s : Session} (hfinish : options.finish = none)
    (hcursor : options.cursor = none) (hmemory : options.memory = none)
    (h : Session.create options.withStart = .ok s) :
    s.cursor.position = .ofAddress s.cursor.start ∧ s.memory = ⟨∅, some s.cursor.start, none⟩ := by
  have hplace := Session.cursor_of_create (fun c hc => by rw [hcursor] at hc; cases hc) h
  refine ⟨hplace, ?_⟩
  obtain ⟨cursor, hfirst, h⟩ := Check.bind_eq_ok h
  obtain ⟨memory, himage, h⟩ := Check.bind_eq_ok h
  obtain ⟨symbols, -, h⟩ := Check.bind_eq_ok h
  rw [← Except.ok.inj h]
  show memory = ⟨∅, some cursor.start, none⟩
  have hstart : options.withStart =
      { options with start := some (options.start.getD Cursor.defaultStart) } := by
    unfold Options.withStart
    rw [hcursor]
  rw [hstart] at hfirst himage
  unfold Options.firstCursor at hfirst
  unfold Options.firstImage at himage
  simp only [hcursor, hmemory, hfinish] at hfirst himage
  obtain ⟨start, hcheck, hmade⟩ := Check.bind_eq_ok hfirst
  obtain ⟨bound, hbound, hrest⟩ := Check.bind_eq_ok himage
  rw [← Except.ok.inj hrest, ← Except.ok.inj hmade]
  show (⟨∅, bound, none⟩ : Image) = ⟨∅, some start, none⟩
  unfold checkAddress at hcheck
  unfold Image.checkBound at hbound
  simp only [Option.getD_some] at hcheck hbound
  cases ha : (options.start.getD Cursor.defaultStart).toAddress? with
  | none => rw [ha] at hcheck; cases hcheck
  | some a =>
      rw [ha] at hcheck hbound
      rw [← Except.ok.inj hcheck, ← Except.ok.inj hbound]

/-- Two passes that write blocks of one size leave the block of the final pass, and export it. -/
theorem result_of_blocks {options : Options} {s last f : Session} {old bytes : List UInt8}
    (hfinish : options.finish = none) (hcursor : options.cursor = none)
    (hmemory : options.memory = none) (hcreate : Session.create options.withStart = .ok s)
    (hpass : last.pass = .discovery) (hold : s.Emits s.cursor.start.toNat old last)
    (hnew : last.turned.Emits s.cursor.start.toNat bytes f) (hlength : bytes.length = old.length)
    (discovery final : PassStatistics) :
    (f.result discovery final).start = s.cursor.start ∧ (f.result discovery final).bytes = bytes := by
  obtain ⟨-, himage⟩ := begins_of_create hfinish hcursor hmemory hcreate
  have hkept : last.turned.memory = last.memory := by
    obtain ⟨journal, hturned⟩ := Session.turned_eq hpass
    rw [hturned]
  have hcells : ∀ a, f.memory.cell? a = laid s.cursor.start.toNat bytes last.turned.owner a := by
    intro a
    rw [hnew.cells, hkept, hold.cells, himage]
    cases hlaid : laid s.cursor.start.toNat bytes last.turned.owner a with
    | some cell => rfl
    | none =>
        rw [laid_eq_none_iff, hlength, ← laid_eq_none_iff _ _ s.owner] at hlaid
        rw [hlaid]
        simp [Image.cell?]
  refine f.bytes_result_of_laid ?_ ?_ hnew.fits hcells discovery final
  · rw [hnew.start, hkept, hold.start, himage]
  · rw [hnew.finish, hkept, hold.finish, himage]

end Source

end Asm6502
