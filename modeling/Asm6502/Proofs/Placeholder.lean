import Asm6502.Proofs.Exactness
import Asm6502.Proofs.TwoPasses

/-!
# The placeholder does not show

What stands in for a label that is not known yet decides nothing. Two compilations that differ in their
placeholder are run side by side:

* `Value.Twin`: pending in both or in none, and equal unless pending.
* `Session.Twin`: sessions that differ in the placeholder and in the bytes of cells where a placeholder can
  have gone. Discovery leaves such cells wherever it writes; the final pass writes the same bytes in both
  and settles the cells one after another (`Session.Settled`).
* `twin_step`: a statement keeps sessions twins, or both runs stop with the same fault.

A final pass that begins where discovery began retraces it, and writes wherever discovery wrote; so no cell
is left unsettled. It begins elsewhere if a cursor is supplied that was moved from its start. Then bytes of
discovery may be left behind, with the placeholder in them, but nothing else differs.

* `Compilation.EqualApart`: compilations that differ in the bytes of some cells at most.
* `assemble_placeholder_independent`: what the placeholder decides, of all that a compilation makes.
-/

namespace Asm6502

open Asm6502.Action (Coupled Moves Parting)

-- ── Values ──────────────────────────────────────────────────────────────────

/-- Both runs stop, with the same fault. -/
def together : Parting where
  both := Eq

section Together

variable {α β : Type} {Q : α → β → Prop} {x : Except Fault α} {y : Except Fault β}

theorem together_allows (fault : Fault) :
    together.Allows (.error fault : Except Fault α) (.error fault : Except Fault β) :=
  Parting.mapped_allows id fault

theorem Action.Parting.Agree.together_error (fault : Fault) :
    together.Agree Q (.error fault : Except Fault α) (.error fault : Except Fault β) :=
  Or.inr (together_allows fault)

theorem exists_of_together_allows (h : together.Allows x y) :
    ∃ fault, x = .error fault ∧ y = .error fault :=
  Parting.exists_of_mapped_allows (F := id) h

theorem Action.Parting.Agree.together_cases (h : together.Agree Q x y) :
    (∃ a b, x = .ok a ∧ y = .ok b ∧ Q a b) ∨ ∃ fault, x = .error fault ∧ y = .error fault := by
  rcases h with hok | hpart
  · exact Or.inl hok
  · exact Or.inr (exists_of_together_allows hpart)

end Together

/-- Values that differ only if they are pending. -/
def Value.Twin (v w : Value) : Prop := w.pending = v.pending ∧ (v.pending = false → w = v)

theorem Value.Twin.respected : Respected together Value.Twin where
  constant _ := ⟨rfl, fun _ => rfl⟩
  sum op := by
    rintro a a' b b' ⟨ha, hka⟩ ⟨hb, hkb⟩
    refine ⟨by simp only [ha, hb], fun hknown => ?_⟩
    obtain ⟨hpa, hpb⟩ := Bool.or_eq_false_iff.mp hknown
    rw [hka hpa, hkb hpb]
  part half := by
    rintro v w ⟨hpending, hknown⟩
    cases hv : v.pending with
    | false =>
        rw [hknown hv]
        cases hword : v.word with
        | ok x => exact .ok ⟨hv, fun _ => by rw [hv]⟩
        | error fault => exact .together_error fault
    | true =>
        have hw : w.pending = true := hpending.trans hv
        rw [Value.word, if_pos hv, Value.word, if_pos hw]
        exact .ok ⟨hw, fun hno => by cases hno⟩

-- ── Symbols ─────────────────────────────────────────────────────────────────

namespace Symbols

/-- The table with another placeholder. -/
def withPlaceholder (s : Symbols) (p : UInt16) : Symbols := { s with placeholder := p }

variable (s : Symbols) (p : UInt16)

theorem lookup_withPlaceholder (pass : Pass) (name : String) :
    together.Agree Value.Twin (s.lookup pass name) ((s.withPlaceholder p).lookup pass name) := by
  have hlabels : (s.withPlaceholder p).labels = s.labels := rfl
  unfold lookup
  rw [hlabels]
  cases s.labels.find? name with
  | some a => exact .ok ⟨rfl, fun _ => rfl⟩
  | none =>
      cases pass with
      | final => exact .together_error _
      | discovery => exact .ok ⟨rfl, fun hno => nomatch hno⟩

theorem use_withPlaceholder (pass : Pass) (cursor : Number) (name : String) :
    (s.withPlaceholder p).use pass cursor name = (s.use pass cursor name).withPlaceholder p := by
  unfold use note withPlaceholder
  simp only
  split
  · split <;> rfl
  · rfl

theorem foldl_use_withPlaceholder (pass : Pass) (cursor : Number) (names : List String) :
    names.foldl (use pass cursor) (s.withPlaceholder p) =
      (names.foldl (use pass cursor) s).withPlaceholder p := by
  induction names generalizing s with
  | nil => rfl
  | cons name rest ih => rw [List.foldl_cons, List.foldl_cons, use_withPlaceholder, ih]

theorem exec_define_withPlaceholder (pass : Pass) (name : String) (x : Number) :
    (define pass name x).exec (s.withPlaceholder p) =
      (((define pass name x).exec s).1, ((define pass name x).exec s).2.withPlaceholder p) := by
  have hlabels : (s.withPlaceholder p).labels = s.labels := rfl
  unfold define checkAddress
  cases x.toAddress? with
  | none => rfl
  | some a =>
      cases hf : s.labels.find? name <;> cases pass <;>
        simp [Action.exec_bind, hlabels, hf] <;> rfl

end Symbols

-- ── Sessions ────────────────────────────────────────────────────────────────

namespace Session

/-- Where no byte rests on a placeholder: in discovery where nothing was written, in the final pass where
    discovery did not write (it wrote to `old`) or what it wrote was overwritten. -/
def Settled (old : List UInt16) (s : Session) (a : UInt16) : Prop :=
  match s.pass with
  | .discovery => a ∉ s.written.map (·.address)
  | .final => a ∈ old → a ∈ s.written.map (·.address)

/-- Sessions of compilations that differ in the placeholder. -/
structure Twin (old : List UInt16) (s t : Session) : Prop where
  symbols : ∃ p, t.symbols = s.symbols.withPlaceholder p
  cursor : t.cursor = s.cursor
  pass : t.pass = s.pass
  outerOwner : t.outerOwner = s.outerOwner
  scopes : t.scopes = s.scopes
  instructions : t.instructions = s.instructions
  marks : t.entrypoint = s.entrypoint ∧ t.breakpoints = s.breakpoints ∧ t.watches = s.watches
  bounds : t.memory.start = s.memory.start ∧ t.memory.finish = s.memory.finish
  written : t.written.map (·.address) = s.written.map (·.address)
  owners : ∀ a, (t.memory.cell? a).map (·.owner) = (s.memory.cell? a).map (·.owner)
  cells : ∀ a, s.Settled old a → t.memory.cell? a = s.memory.cell? a

namespace Twin

variable {old : List UInt16} {s t : Session}

theorem owner (h : Twin old s t) : t.owner = s.owner := by
  unfold Session.owner
  rw [h.scopes, h.outerOwner]

theorem value (h : Twin old s t) (o : Operand) :
    together.Agree Value.Twin (s.value o) (t.value o) := by
  obtain ⟨p, hsymbols⟩ := h.symbols
  unfold Session.value
  rw [hsymbols, h.cursor, h.pass]
  exact o.valueIn_agree Value.Twin.respected s.cursor.position
    (s.symbols.lookup_withPlaceholder p s.pass)

theorem of_symbols (h : Twin old s t) {symbols symbols' : Symbols}
    (hsymbols : ∃ p, symbols' = symbols.withPlaceholder p) :
    Twin old { s with symbols } { t with symbols := symbols' } :=
  { h with symbols := hsymbols, cells := h.cells }

theorem used (h : Twin old s t) (o : Operand) : Twin old (s.used o) (t.used o) := by
  obtain ⟨p, hsymbols⟩ := h.symbols
  refine h.of_symbols ⟨p, ?_⟩
  rw [hsymbols, h.cursor, h.pass, Symbols.foldl_use_withPlaceholder]

/-- Both runs write at the same address: anything in discovery, the same byte in the final pass. -/
theorem put (h : Twin old s t) {w w' : Write} (haddress : w'.address = w.address)
    (howner : w'.cell.owner = w.cell.owner) (hcell : s.pass = .discovery ∨ w' = w) :
    Twin old (s.put w) (t.put w') where
  symbols := h.symbols
  cursor := by
    show t.cursor.advance 1 = s.cursor.advance 1
    rw [h.cursor]
  pass := h.pass
  outerOwner := h.outerOwner
  scopes := h.scopes
  instructions := h.instructions
  marks := h.marks
  bounds := h.bounds
  written := by
    show w'.address :: t.written.map (·.address) = w.address :: s.written.map (·.address)
    rw [haddress, h.written]
  owners a := by
    show ((t.memory.put w').cell? a).map (·.owner) = ((s.memory.put w).cell? a).map (·.owner)
    rw [Image.cell?_put, Image.cell?_put, haddress]
    split
    · rw [Option.map_some, Option.map_some, howner]
    · exact h.owners a
  cells a hsettled := by
    show (t.memory.put w').cell? a = (s.memory.put w).cell? a
    have hwritten : (s.put w).written.map (·.address) = w.address :: s.written.map (·.address) := rfl
    rw [Image.cell?_put, Image.cell?_put, haddress]
    unfold Settled at hsettled
    rw [hwritten] at hsettled
    by_cases ha : w.address = a
    · rw [if_pos ha, if_pos ha]
      rcases hcell with hpass | rfl
      · rw [show (s.put w).pass = .discovery from hpass] at hsettled
        exact absurd (ha ▸ List.mem_cons_self ..) hsettled
      · rfl
    · rw [if_neg ha, if_neg ha]
      refine h.cells a ?_
      unfold Settled
      cases hpass : s.pass with
      | discovery =>
          rw [show (s.put w).pass = .discovery from hpass] at hsettled
          exact fun hmem => hsettled (List.mem_cons_of_mem _ hmem)
      | final =>
          rw [show (s.put w).pass = .final from hpass] at hsettled
          intro hold
          rcases List.mem_cons.mp (hsettled hold) with rfl | hmem
          · exact absurd rfl ha
          · exact hmem

end Twin

end Session

-- ── The basic steps ─────────────────────────────────────────────────────────

/-- Numbers that both runs write: the same one, or any two bytes in discovery. -/
def Matched (pass : Pass) (x y : Number) : Prop :=
  y = x ∨ pass = .discovery ∧ ∃ b b', x = .ofByte b ∧ y = .ofByte b'

/-- Writes of matched numbers: to the same address for the same owner. -/
theorem Matched.checkWrite {pass : Pass} {x y : Number} (h : Matched pass x y) (position : Number)
    (owner : String) :
    together.Agree (fun w w' => w'.address = w.address ∧ w'.cell.owner = w.cell.owner ∧
      (pass = .discovery ∨ w' = w)) (Image.checkWrite position x owner)
      (Image.checkWrite position y owner) := by
  rcases h with rfl | ⟨hpass, b, b', rfl, rfl⟩
  · cases Image.checkWrite position y owner with
    | ok w => exact .ok ⟨rfl, rfl, Or.inr rfl⟩
    | error fault => exact .together_error fault
  · cases hposition : position.toAddress? with
    | none =>
        unfold Image.checkWrite checkAddress
        rw [hposition]
        exact .together_error _
    | some a =>
        rw [Image.checkWrite_of owner hposition (Number.toByte?_eq_some_iff.mpr rfl),
          Image.checkWrite_of owner hposition (Number.toByte?_eq_some_iff.mpr rfl)]
        exact .ok ⟨rfl, rfl, Or.inl hpass⟩

/-- Whether a cell admits a write depends on its owner alone. -/
theorem Session.Twin.store {old : List UInt16} {s t : Session} (h : s.Twin old t) {w w' : Write}
    (haddress : w'.address = w.address) (howner : w'.cell.owner = w.cell.owner) :
    together.Agree (fun _ _ => True) (s.memory.store w) (t.memory.store w') := by
  have howners := h.owners w.address
  unfold Image.store
  rw [haddress, howner]
  cases hs : s.memory.cell? w.address with
  | none =>
      rw [hs, Option.map_none, Option.map_eq_none_iff] at howners
      rw [howners]
      exact .ok trivial
  | some cell =>
      rw [hs, Option.map_some] at howners
      obtain ⟨cell', hcell', hsame⟩ := Option.map_eq_some_iff.mp howners
      rw [hcell']
      simp only [hsame]
      split
      · exact .ok trivial
      · exact .together_error _

section Steps

variable {old : List UInt16}

/-- Whatever is ahead, runs are compared. -/
abbrev TwinCoupled {α β : Type} (Pre : Session → Session → Prop) (first : Assembly α)
    (second : Assembly β) (Post : α → β → Session → Session → Prop) : Prop :=
  Coupled (fun _ => True) together Pre first second Post

/-- Values are twins, and known in the final pass. -/
theorem twin_evaluate (o : Operand) :
    TwinCoupled (Session.Twin old) (Assembly.evaluate o) (Assembly.evaluate o)
      (fun v w s t => Session.Twin old s t ∧ v.Twin w ∧ (s.pass = .final → v.pending = false)) := by
  intro s t h _
  rcases h.value o with ⟨v, w, hv, hw, hvw⟩ | hpart
  · exact Or.inl ⟨v, w, _, _, Assembly.exec_evaluate_of_ok hv, Assembly.exec_evaluate_of_ok hw,
      h.used o, hvw, fun hpass => s.pending_of_final hpass hv⟩
  · obtain ⟨references, hs⟩ := Assembly.exec_evaluate o s
    obtain ⟨references', ht⟩ := Assembly.exec_evaluate o t
    rw [hs, ht]
    exact Or.inr hpart

/-- Matched numbers are written, or refused, by both. -/
theorem twin_emitByte {pass : Pass} {x y : Number} (hxy : Matched pass x y) :
    TwinCoupled (fun s t => Session.Twin old s t ∧ s.pass = pass) (Assembly.emitByte x)
      (Assembly.emitByte y) (fun _ _ s t => Session.Twin old s t ∧ s.pass = pass) := by
  rintro s t ⟨h, rfl⟩ -
  rw [Assembly.exec_emitByte, Assembly.exec_emitByte, h.cursor, h.owner]
  rcases (hxy.checkWrite s.cursor.position s.owner).together_cases with
    ⟨w, w', hw, hw', haddress, howner, hcell⟩ | ⟨fault, hw, hw'⟩
  · rw [hw, hw']
    simp only
    rcases (h.store haddress howner).together_cases with ⟨m, m', hm, hm', -⟩ | ⟨fault, hm, hm'⟩
    · rw [hm, hm']
      exact Or.inl ⟨(), (), _, _, rfl, rfl, h.put haddress howner hcell, rfl⟩
    · rw [hm, hm']
      exact Or.inr (together_allows fault)
  · rw [hw, hw']
    exact Or.inr (together_allows fault)

/-- Where nothing is pending in the final pass, what is pending is so in discovery. -/
theorem discovery_of_pending {v : Value} {pass : Pass} (hfinal : pass = .final → v.pending = false)
    (hv : v.pending = true) : pass = .discovery := by
  cases pass with
  | discovery => rfl
  | final =>
      rw [hfinal rfl] at hv
      exact nomatch hv

/-- A pending amount is cut to a byte, which only discovery does. -/
theorem Value.Twin.matched {v w : Value} {pass : Pass} (h : v.Twin w)
    (hfinal : pass = .final → v.pending = false) :
    Matched pass (if v.pending then .ofByte v.amount.lowByte else v.amount)
      (if w.pending then .ofByte w.amount.lowByte else w.amount) := by
  cases hv : v.pending with
  | false =>
      rw [h.2 hv, hv]
      exact Or.inl rfl
  | true =>
      rw [h.1.trans hv]
      exact Or.inr ⟨discovery_of_pending hfinal hv, _, _, rfl, rfl⟩

theorem twin_byteOf (o : Operand) :
    TwinCoupled (Session.Twin old) (Assembly.byteOf o) (Assembly.byteOf o)
      (fun _ _ => Session.Twin old) := by
  refine Coupled.bind (twin_evaluate o) (fun _ _ _ => trivial) (fun v w => ?_)
  rintro s t ⟨h, hvw, hfinal⟩ -
  rcases twin_emitByte (hvw.matched hfinal) s t ⟨h, rfl⟩ trivial with
    ⟨a, b, s', t', hs, ht, h', -⟩ | hpart
  · exact Or.inl ⟨a, b, s', t', hs, ht, h'⟩
  · exact Or.inr hpart

theorem twin_known (o : Operand) (subject : Subject) :
    TwinCoupled (Session.Twin old) (Source.known o subject) (Source.known o subject)
      (fun a b s t => a = b ∧ Session.Twin old s t) := by
  refine Coupled.bind (twin_evaluate o) (fun _ _ _ => trivial) (fun v w => ?_)
  rintro s t ⟨h, ⟨hpending, hknown⟩, -⟩ -
  rw [hpending]
  cases hv : v.pending with
  | true => exact Or.inr (together_allows _)
  | false =>
      rw [hknown hv]
      exact Or.inl ⟨_, _, s, t, rfl, rfl, rfl, h⟩

theorem twin_label (name : String) (address : Option Number) :
    TwinCoupled (Session.Twin old) (Assembly.label name address) (Assembly.label name address)
      (fun _ _ => Session.Twin old) := by
  intro s t h _
  obtain ⟨p, hsymbols⟩ := h.symbols
  unfold Assembly.label
  rw [Action.exec_bind_of_ok (Action.exec_get s), Action.exec_bind_of_ok (Action.exec_get t), h.pass,
    h.cursor]
  generalize address.getD s.cursor.position = x
  have ht := s.symbols.exec_define_withPlaceholder p s.pass name x
  rw [← hsymbols] at ht
  cases hs : (Symbols.define s.pass name x).exec s.symbols with
  | mk outcome symbols =>
      rw [hs] at ht
      rw [Assembly.exec_onSymbols hs, Assembly.exec_onSymbols ht]
      cases outcome with
      | ok a => exact Or.inl ⟨a, a, _, _, rfl, rfl, h.of_symbols ⟨p, rfl⟩⟩
      | error fault => exact Or.inr (together_allows fault)

theorem twin_accompanied : Source.Accompanied (fun _ => True) together (Session.Twin old) where
  back _ _ _ _ := trivial
  alike _ := Or.inr rfl
  byteOf := twin_byteOf
  known := twin_known
  label := twin_label
  org place := by
    intro s t h _
    refine Or.inl ⟨(), (), _, _, rfl, rfl, { h with cursor := ?_, cells := h.cells }⟩
    show t.cursor.jump place = s.cursor.jump place
    rw [h.cursor]

end Steps

-- ── Instructions ────────────────────────────────────────────────────────────

namespace Source

/-- Whether a direct operand is a byte part with constants added or subtracted. -/
def OperandSyntax.isOffsetBytePart : OperandSyntax → Bool
  | .direct (.add l r) _ => (Operand.add l r).isBytePart
  | .direct (.sub l r) _ => (Operand.sub l r).isBytePart
  | _ => false

end Source

section Instructions

open Source (OperandSyntax inZeroPage)

variable {m : Mnemonic} {pass : Pass}

/-- Encodings of the same form, with matched bytes. -/
def Encoded.Matched (pass : Pass) (e e' : Encoded) : Prop :=
  e'.descriptor = e.descriptor ∧ List.Forall₂ (Asm6502.Matched pass) e.bytes e'.bytes

theorem Value.Twin.word {v w : Value} (h : v.Twin w) (hfinal : pass = .final → v.pending = false) :
    together.Agree (fun a b => ∀ half : UInt16 → UInt8,
      Matched pass (.ofByte (half a)) (.ofByte (half b))) v.word w.word := by
  cases hv : v.pending with
  | false =>
      rw [h.2 hv]
      cases v.word with
      | ok a => exact .ok (fun _ => Or.inl rfl)
      | error fault => exact .together_error fault
  | true =>
      rw [Value.word, if_pos hv, Value.word, if_pos (h.1.trans hv)]
      exact .ok (fun half => Or.inr ⟨discovery_of_pending hfinal hv, _, _, rfl, rfl⟩)

/-- In a given mode pending operands differ in their bytes only. -/
theorem encodeIn_twin {mode : Mode} {v w : Value} (h : v.Twin w)
    (hfinal : pass = .final → v.pending = false) :
    together.Agree (Encoded.Matched pass) (encodeIn m mode v) (encodeIn m mode w) := by
  unfold encodeIn
  cases lookup m mode with
  | error fault => exact .together_error fault
  | ok d =>
      have hopcode : Matched pass (.ofByte d.opcode) (.ofByte d.opcode) := Or.inl rfl
      simp only [Check.ok_bind]
      unfold encode
      cases d.mode.width with
      | none => exact .ok ⟨rfl, .cons hopcode .nil⟩
      | byte => exact .ok ⟨rfl, .cons hopcode (.cons (h.matched hfinal) .nil)⟩
      | word =>
          rcases (h.word hfinal).together_cases with ⟨a, b, ha, hb, hbytes⟩ | ⟨fault, ha, hb⟩
          · simp only [ha, hb, Check.ok_bind, Check.pure_eq_ok]
            exact .ok ⟨rfl, .cons hopcode (.cons (hbytes lowByte) (.cons (hbytes highByte) .nil))⟩
          · simp only [ha, hb, Check.error_bind]
            exact .together_error fault

/-- A displacement to a pending target is not checked. -/
theorem encodeBranch_twin (cursor : Number) {v w : Value} (index : Option Index) (h : v.Twin w)
    (hfinal : pass = .final → v.pending = false) :
    together.Agree (Encoded.Matched pass) (encodeBranch pass cursor m v index)
      (encodeBranch pass cursor m w index) := by
  cases hv : v.pending with
  | false =>
      rw [h.2 hv]
      cases encodeBranch pass cursor m v index with
      | ok e => exact .ok ⟨rfl, List.forall₂_same.mpr (fun _ _ => Or.inl rfl)⟩
      | error fault => exact .together_error fault
  | true =>
      have hpass := discovery_of_pending hfinal hv
      obtain ⟨b, hb⟩ := branchOffset_unchecked m cursor v.amount
      obtain ⟨b', hb'⟩ := branchOffset_unchecked m cursor w.amount
      unfold encodeBranch
      rw [h.1.trans hv, hv, Bool.not_true, Bool.and_false, hb, hb']
      split
      · exact .together_error _
      · cases lookup m .relative with
        | error fault => exact .together_error fault
        | ok d => exact .ok ⟨rfl, .cons (Or.inl rfl) (.cons (Or.inr ⟨hpass, b, b', rfl, rfl⟩) .nil)⟩

/-- The mode for an operand rests on its value only through whether that lies below 256, unless a wide
    operand is indexed and indirect. -/
theorem selectMode_congr {x y : Number} {index : Option Index} {flags : Flags} (h : x < 256 ↔ y < 256)
    (hflags : flags.indirect = true → index = none ∨ flags.zeroPage = true) :
    selectMode m x index flags = selectMode m y index flags := by
  unfold selectMode
  cases index with
  | none => simp only [h]
  | some i =>
      cases hindirect : flags.indirect with
      | false => simp only [h, Bool.false_eq_true, if_false]
      | true =>
          rcases hflags hindirect with hno | hzero
          · exact nomatch hno
          · simp [hzero]

theorem not_maximum_lt (x : Number) : ¬x.maximum 256 < 256 := by
  cases x with
  | nan => decide
  | infinite negative => cases negative <;> decide
  | finite q =>
      show ¬(if Number.finite q < 256 then (256 : Number) else .finite q) < 256
      split
      · decide
      · assumption

/-- A byte part lies below 256. -/
theorem lt_256_of_bytePart {s : Session} {o : Operand} {v : Value} (hv : s.value o = .ok v)
    (ho : (∃ o', o = .low o') ∨ ∃ o', o = .high o') : v.amount < 256 := by
  have hbyte : ∀ b : UInt8, Number.ofByte b < 256 := fun b =>
    Number.ofNat_lt_256_iff.mpr b.toNat_lt
  unfold Session.value at hv
  rcases ho with ⟨o', rfl⟩ | ⟨o', rfl⟩ <;>
    · obtain ⟨u, -, hv⟩ := Check.bind_eq_ok hv
      obtain ⟨word, -, hv⟩ := Check.bind_eq_ok hv
      rw [← Except.ok.inj hv]
      exact hbyte _

/-- The operands whose mode rests on their value are byte parts in the narrow sense, or none. -/
theorem bytePart_of_direct {o : Operand} {index : Option Index}
    (hplain : (OperandSyntax.direct o index).isOffsetBytePart = false) (hpart : o.isBytePart = true) :
    (∃ o', o = .low o') ∨ ∃ o', o = .high o' := by
  cases o with
  | low o' => exact Or.inl ⟨o', rfl⟩
  | high o' => exact Or.inr ⟨o', rfl⟩
  | add l r => rw [OperandSyntax.isOffsetBytePart, hpart] at hplain; exact nomatch hplain
  | sub l r => rw [OperandSyntax.isOffsetBytePart, hpart] at hplain; exact nomatch hplain
  | number _ | name _ | label _ | here => exact nomatch hpart

/-- The mode for a pending operand rests on its form alone. -/
theorem chooseMode_twin {s t : Session} {x : OperandSyntax} {o : Operand} {v w : Value}
    (hx : x.carried = some o) (hplain : x.isOffsetBytePart = false) (hv : s.value o = .ok v)
    (hw : t.value o = .ok w) (h : v.Twin w) (pinned : Option Mode) :
    chooseMode pinned m o w (x.addressing m w).1 (x.addressing m w).2 =
      chooseMode pinned m o v (x.addressing m v).1 (x.addressing m v).2 := by
  cases hpending : v.pending with
  | false => rw [h.2 hpending]
  | true =>
      have hpending' := h.1.trans hpending
      have hzeroPage : ∀ index, inZeroPage m index w = inZeroPage m index v := by
        intro index
        simp [inZeroPage, hpending, hpending']
      have haddressing : x.addressing m w = x.addressing m v := by
        cases x <;> simp only [OperandSyntax.addressing, hzeroPage]
      rw [haddressing]
      -- below 256 are the byte parts, and nothing else that is pending
      have hselectable : (o.isBytePart = true → (∃ o', o = .low o') ∨ ∃ o', o = .high o') →
          (selectable o w < 256 ↔ selectable o v < 256) := by
        intro hform
        unfold selectable
        rw [hpending, hpending']
        cases hpart : o.isBytePart with
        | true =>
            have hnarrow := hform hpart
            exact iff_of_true (lt_256_of_bytePart hw hnarrow) (lt_256_of_bytePart hv hnarrow)
        | false => exact iff_of_false (not_maximum_lt _) (not_maximum_lt _)
      unfold chooseMode
      cases pinned with
      | some mode => rfl
      | none =>
          cases x with
          | accumulator => exact nomatch hx
          | immediate o' =>
              obtain rfl := Option.some.inj hx
              exact selectMode_congr (hselectable (fun _ => Or.inl ⟨o', rfl⟩)) (fun hno => nomatch hno)
          | direct o' index =>
              obtain rfl := Option.some.inj hx
              exact selectMode_congr (hselectable (bytePart_of_direct hplain)) (fun hno => nomatch hno)
          | indirect o' | indexedIndirect o' | indirectIndexed o' => rfl

variable {old : List UInt16} {s t : Session}

theorem encodeOperand_twin (h : s.Twin old t) {x : OperandSyntax} {o : Operand} {v w : Value}
    (hx : x.carried = some o) (hplain : x.isOffsetBytePart = false) (hv : s.value o = .ok v)
    (hw : t.value o = .ok w) (hvw : v.Twin w) :
    together.Agree (Encoded.Matched s.pass) (s.encodeOperand m o v (x.addressing m v))
      (t.encodeOperand m o w (x.addressing m w)) := by
  obtain ⟨p, hsymbols⟩ := h.symbols
  have hfinal : s.pass = .final → v.pending = false := fun hpass => s.pending_of_final hpass hv
  have hpins : t.symbols.pinFor s.pass s.cursor.position = s.symbols.pinFor s.pass s.cursor.position := by
    rw [hsymbols]
    rfl
  unfold Session.encodeOperand encodeWith
  rw [h.pass, h.cursor, hpins]
  cases m.isBranch with
  | true =>
      have hindex : (x.addressing m w).1 = (x.addressing m v).1 := by cases x <;> rfl
      rw [if_pos rfl, if_pos rfl, hindex]
      exact encodeBranch_twin _ _ hvw hfinal
  | false =>
      rw [if_neg (by decide), if_neg (by decide), chooseMode_twin hx hplain hv hw hvw]
      cases chooseMode _ m o v (x.addressing m v).1 (x.addressing m v).2 with
      | error fault => exact .together_error fault
      | ok mode => exact encodeIn_twin hvw hfinal

/-- Both runs encode an instruction in the same form, or refuse it alike. -/
theorem encode_twin (h : s.Twin old t) {operand : Option OperandSyntax}
    (hplain : ∀ x, operand = some x → x.isOffsetBytePart = false) :
    together.Agree (Encoded.Matched s.pass) (s.encode m operand) (t.encode m operand) := by
  have hsame : ∀ c : Except Fault Encoded, together.Agree (Encoded.Matched s.pass) c c := by
    intro c
    cases c with
    | ok e => exact .ok ⟨rfl, List.forall₂_same.mpr (fun _ _ => Or.inl rfl)⟩
    | error fault => exact .together_error fault
  cases operand with
  | none => exact hsame _
  | some x =>
      have hoperand : ∀ {o : Operand}, x.carried = some o → together.Agree (Encoded.Matched s.pass)
          (do Source.takesOperand m; let v ← s.value o; s.encodeOperand m o v (x.addressing m v))
          (do Source.takesOperand m; let w ← t.value o; t.encodeOperand m o w (x.addressing m w)) := by
        intro o hx
        cases Source.takesOperand m with
        | error fault => exact .together_error fault
        | ok _ =>
            simp only [Check.ok_bind]
            rcases (h.value o).together_cases with ⟨v, w, hv, hw, hvw⟩ | ⟨fault, hv, hw⟩
            · rw [hv, hw]
              exact encodeOperand_twin h hx (hplain x rfl) hv hw hvw
            · rw [hv, hw]
              exact .together_error fault
      cases x with
      | accumulator => exact hsame _
      | direct o index => exact (h.value o).bind (fun _ _ _ => hoperand rfl)
      | immediate o | indirect o | indexedIndirect o | indirectIndexed o => exact hoperand rfl

/-- A pending operand is pinned by both runs, in the same mode. -/
theorem Session.Twin.pinned (h : s.Twin old t) (m : Mnemonic) (o : Operand) {e e' : Encoded}
    (he : e'.descriptor = e.descriptor) : (s.pinned m o e).Twin old (t.pinned m o e') := by
  obtain ⟨p, hsymbols⟩ := h.symbols
  unfold Session.pinned
  rcases (h.value o).together_cases with ⟨v, w, hv, hw, hvw⟩ | ⟨fault, hv, hw⟩
  · rw [hv, hw]
    simp only [hvw.1, he]
    split
    · refine h.of_symbols ⟨p, ?_⟩
      rw [hsymbols, h.cursor]
      rfl
    · exact h
  · rw [hv, hw]
    exact h

theorem Session.Twin.encoded (h : s.Twin old t) (m : Mnemonic) (operand : Option OperandSyntax)
    {e e' : Encoded} (he : e'.descriptor = e.descriptor) :
    (s.encoded m e operand).Twin old (t.encoded m e' operand) := by
  rcases operand with _ | (_ | o | ⟨o, index⟩ | o | o | o)
  case none => exact h
  case some.accumulator => exact h
  case some.direct => exact ((h.used o).used o).pinned m o he
  case some.immediate => exact (h.used (.low o)).pinned m (.low o) he
  all_goals exact (h.used o).pinned m o he

end Instructions

namespace Source

variable {old : List UInt16}

theorem twin_encoding {m : Mnemonic} {operand : Option OperandSyntax}
    (hplain : ∀ x, operand = some x → x.isOffsetBytePart = false) :
    TwinCoupled (Session.Twin old) (encoding m operand) (encoding m operand) (fun e e' s t =>
      Session.Twin old s t ∧ List.Forall₂ (Matched s.pass) e.bytes e'.bytes) := by
  intro s t h _
  rcases (encode_twin h hplain).together_cases with ⟨e, e', he, he', hsame, hbytes⟩ | ⟨fault, he, he'⟩
  · refine Or.inl ⟨e, e', _, _, exec_encoding_of_ok he, exec_encoding_of_ok he', ?_, ?_⟩
    · exact h.encoded m operand hsame
    · obtain ⟨references, hencoded⟩ := s.encoded_eq m e operand
      rw [hencoded]
      exact hbytes
  · obtain ⟨s', hs⟩ := exec_encoding_of_error he
    obtain ⟨t', ht⟩ := exec_encoding_of_error he'
    rw [hs, ht]
    exact Or.inr (together_allows fault)

/-- An instruction keeps sessions twins. -/
theorem twin_instruction {m : Mnemonic} {operand : Option OperandSyntax}
    (hplain : ∀ x, operand = some x → x.isOffsetBytePart = false) :
    TwinCoupled (Session.Twin old) (Statement.Body.run (.instruction m operand))
      (Statement.Body.run (.instruction m operand)) (fun _ _ => Session.Twin old) := by
  rw [run_instruction]
  refine Coupled.bind (twin_encoding hplain) (fun _ _ _ => trivial) (fun e e' => ?_)
  rintro s t ⟨h, hbytes⟩ -
  have heach : TwinCoupled (fun s' t' => Session.Twin old s' t' ∧ s'.pass = s.pass)
      (Action.each Assembly.emitByte e.bytes) (Action.each Assembly.emitByte e'.bytes)
      (fun _ _ s' t' => Session.Twin old s' t' ∧ s'.pass = s.pass) :=
    Coupled.each (Q := Matched s.pass) (fun _ _ _ => trivial) (fun _ _ hxy => twin_emitByte hxy) hbytes
  have hemission : TwinCoupled (fun s' t' => Session.Twin old s' t' ∧ s'.pass = s.pass)
      (do Action.each Assembly.emitByte e.bytes; Assembly.countInstruction)
      (do Action.each Assembly.emitByte e'.bytes; Assembly.countInstruction)
      (fun _ _ => Session.Twin old) := by
    refine Coupled.bind heach (fun _ _ _ => trivial) (fun _ _ => ?_)
    rintro s' t' ⟨h', -⟩ -
    refine Or.inl ⟨(), (), _, _, rfl, rfl, { h' with instructions := ?_, cells := h'.cells }⟩
    show t'.instructions + 1 = s'.instructions + 1
    rw [h'.instructions]
  exact hemission s t ⟨h, rfl⟩ trivial

-- ── Statements ──────────────────────────────────────────────────────────────

/-- Whether a statement is an instruction with a byte part that has constants added or subtracted as its
    direct operand. -/
def Statement.offsetsBytePart (st : Statement) : Bool :=
  match st.body with
  | .instruction _ (some x) => x.isOffsetBytePart
  | _ => false

/-- A statement keeps sessions twins, or both runs stop with the same fault. -/
theorem twin_step {st : Statement} (hplain : st.offsetsBytePart = false) :
    TwinCoupled (Session.Twin old) st.run st.run (fun _ _ => Session.Twin old) := by
  have hbody : TwinCoupled (Session.Twin old) st.body.run st.body.run (fun _ _ => Session.Twin old) := by
    refine twin_accompanied.body (fun m operand hb => ?_)
    rw [hb]
    refine twin_instruction (fun x hx => ?_)
    rw [Statement.offsetsBytePart, hb, hx] at hplain
    exact hplain
  intro s t h _
  rw [exec_run, exec_run]
  rcases hbody s t h trivial with ⟨_, _, s', t', hs, ht, h'⟩ | hpart
  · rw [hs, ht]
    exact Or.inl ⟨(), (), s', t', rfl, rfl, h'⟩
  · obtain ⟨fault, hs, ht⟩ := exists_of_together_allows hpart
    rw [hs, ht]
    exact Or.inr (together_allows _)

theorem twin_runAll {statements : List Statement}
    (hplain : ∀ st ∈ statements, st.offsetsBytePart = false) :
    TwinCoupled (Session.Twin old) (runAll statements) (runAll statements)
      (fun _ _ => Session.Twin old) := by
  have hpaired : List.Forall₂ (fun st st' => st' = st ∧ st.offsetsBytePart = false) statements
      statements := List.forall₂_same.mpr (fun st hst => ⟨rfl, hplain st hst⟩)
  refine Coupled.each (fun _ _ _ => trivial) ?_ hpaired
  rintro st _ ⟨rfl, hst⟩
  exact twin_step hst

/-- Both runs complete and leave twins, or they stop with the same fault. -/
theorem twin_cases {statements : List Statement}
    (hplain : ∀ st ∈ statements, st.offsetsBytePart = false) {s t : Session} (h : s.Twin old t) :
    (∃ s' t', (runAll statements).exec s = (.ok (), s') ∧ (runAll statements).exec t = (.ok (), t') ∧
      s'.Twin old t') ∨
    ∃ fault s' t', (runAll statements).exec s = (.error fault, s') ∧
      (runAll statements).exec t = (.error fault, t') := by
  rcases twin_runAll hplain s t h trivial with ⟨_, _, s', t', hs, ht, h'⟩ | hpart
  · exact Or.inl ⟨s', t', hs, ht, h'⟩
  · obtain ⟨fault, hs, ht⟩ := exists_of_together_allows hpart
    exact Or.inr ⟨fault, _, _, Prod.ext hs rfl, Prod.ext ht rfl⟩

end Source

-- ── Whole compilations ──────────────────────────────────────────────────────

/-- An image is its cells and its bounds. -/
theorem Image.eq_of_cell? {m m' : Image} (hcells : ∀ a, m'.cell? a = m.cell? a)
    (hstart : m'.start = m.start) (hfinish : m'.finish = m.finish) : m' = m := by
  obtain ⟨cells, start, finish⟩ := m
  obtain ⟨cells', start', finish'⟩ := m'
  obtain rfl : cells' = cells := Std.ExtTreeMap.ext_getElem? (fun {a} => hcells a)
  obtain rfl : start' = start := hstart
  obtain rfl : finish' = finish := hfinish
  rfl

/-- The written range rests on where cells are. -/
theorem Image.writtenRange_congr {m m' : Image} (h : ∀ a, (m'.cell? a).isSome = (m.cell? a).isSome) :
    m'.writtenRange = m.writtenRange := by
  have hmem : ∀ a, a ∈ m'.cells ↔ a ∈ m.cells := by
    intro a
    rw [Std.ExtTreeMap.mem_iff_isSome_getElem?, Std.ExtTreeMap.mem_iff_isSome_getElem?]
    exact Bool.eq_iff_iff.mp (h a)
  have hmin : m'.cells.minKey? = m.cells.minKey? := Option.ext (fun a => by
    simp only [Std.ExtTreeMap.minKey?_eq_some_iff_mem_and_forall, hmem])
  have hmax : m'.cells.maxKey? = m.cells.maxKey? := Option.ext (fun a => by
    simp only [Std.ExtTreeMap.maxKey?_eq_some_iff_mem_and_forall, hmem])
  unfold writtenRange
  rw [hmin, hmax]

/-- Compilations that differ at most in the bytes of the cells at some places. -/
structure Compilation.EqualApart (places : UInt16 → Prop) (c c' : Compilation) : Prop where
  others : c' = { c with memory := c'.memory, bytes := c'.bytes }
  bounds : c'.memory.start = c.memory.start ∧ c'.memory.finish = c.memory.finish
  owners : ∀ a, (c'.memory.cell? a).map (·.owner) = (c.memory.cell? a).map (·.owner)
  cells : ∀ a, ¬places a → c'.memory.cell? a = c.memory.cell? a
  exports : c.bytes = c.memory.slice (.ofAddress c.start) (.ofInt c.finish) ∧
    c'.bytes = c'.memory.slice (.ofAddress c.start) (.ofInt c.finish)

theorem Compilation.EqualApart.eq {places : UInt16 → Prop} {c c' : Compilation}
    (h : c.EqualApart places c') (hnone : ∀ a, ¬places a) : c' = c := by
  have hmemory : c'.memory = c.memory :=
    Image.eq_of_cell? (fun a => h.cells a (hnone a)) h.bounds.1 h.bounds.2
  have hbytes : c'.bytes = c.bytes := by rw [h.exports.1, h.exports.2, hmemory]
  rw [h.others, hmemory, hbytes]

namespace Session

theorem Twin.statistics {old : List UInt16} {s t : Session} (h : s.Twin old t) :
    t.statistics = s.statistics := by
  have hlength : t.written.length = s.written.length := by
    have := congrArg List.length h.written
    rwa [List.length_map, List.length_map] at this
  unfold Session.statistics
  rw [h.instructions, hlength, h.cursor]

/-- The final pass begins with twins, and has to overwrite what discovery wrote. -/
theorem Twin.turned {s t : Session} (h : s.Twin [] t) (hpass : s.pass = .discovery) :
    s.turned.Twin (s.written.map (·.address)) t.turned := by
  obtain ⟨journal, hs⟩ := turned_eq hpass
  obtain ⟨journal', ht⟩ := turned_eq (h.pass.trans hpass)
  rw [hs, ht]
  exact
    { symbols := h.symbols
      cursor := by
        show t.cursor.reset = s.cursor.reset
        rw [h.cursor]
      pass := rfl
      outerOwner := h.outerOwner
      scopes := h.scopes
      instructions := rfl
      marks := h.marks
      bounds := h.bounds
      written := rfl
      owners := h.owners
      cells := by
        intro a hsettled
        refine h.cells a ?_
        unfold Settled
        rw [hpass]
        exact fun hmem => absurd (hsettled hmem) List.not_mem_nil }

/-- Twins give the same result after the final pass, up to bytes that discovery left behind. -/
theorem Twin.result {old : List UInt16} {s t : Session} (h : s.Twin old t) (hpass : s.pass = .final)
    (discovery final : PassStatistics) :
    (s.result discovery final).EqualApart (fun a => a ∈ old ∧ a ∉ s.written.map (·.address))
      (t.result discovery final) := by
  obtain ⟨p, hsymbols⟩ := h.symbols
  obtain ⟨hentrypoint, hbreakpoints, hwatches⟩ := h.marks
  have hrange : t.memory.writtenRange = s.memory.writtenRange := by
    refine Image.writtenRange_congr (fun a => ?_)
    rw [← Option.isSome_map, h.owners a, Option.isSome_map]
  have hstart : t.exportStart = s.exportStart := by
    unfold exportStart
    rw [h.bounds.1, h.cursor]
  have hfinish : t.exportFinish = s.exportFinish := by
    unfold exportFinish
    rw [h.bounds.2, hrange, hstart]
  refine ⟨?_, h.bounds, h.owners, fun a ha => h.cells a ?_, rfl, ?_⟩
  · unfold Session.result
    rw [hsymbols, hstart, hfinish, hentrypoint, hbreakpoints, hwatches]
    rfl
  · unfold Settled
    rw [hpass]
    exact fun hold => not_not.mp (fun hkept => ha ⟨hold, hkept⟩)
  · show t.memory.slice (.ofAddress t.exportStart) (.ofInt t.exportFinish) = _
    rw [hstart, hfinish]
    rfl

end Session

/-- Options with a placeholder. -/
def Options.withPlaceholder (options : Options) (p : UInt16) : Options :=
  { options with placeholder := some (.ofAddress p) }

theorem Symbols.create_ofAddress {p : UInt16} (h : 256 ≤ p) :
    create (some (.ofAddress p)) = .ok ⟨.empty, [], .empty, [], p⟩ := by
  have haddress : (Number.ofAddress p).toAddress? = some p := Number.toAddress?_eq_some_iff.mpr rfl
  unfold create
  simp only [Option.getD_some, haddress]
  rw [if_neg (UInt16.not_lt.mpr h)]

/-- Sessions that are created with different placeholders are twins. -/
theorem Session.create_twin (options : Options) {p q : UInt16} (hp : 256 ≤ p) (hq : 256 ≤ q) :
    together.Agree (Twin []) (create (options.withPlaceholder p).withStart)
      (create (options.withPlaceholder q).withStart) := by
  have hstart : ∀ p, (options.withPlaceholder p).withStart = options.withStart.withPlaceholder p := by
    intro p
    obtain ⟨start, finish, placeholder, verbose, owner, cursor, memory⟩ := options
    cases cursor <;> rfl
  rw [hstart, hstart]
  unfold create
  rw [show (options.withStart.withPlaceholder p).placeholder = some (.ofAddress p) from rfl,
    show (options.withStart.withPlaceholder q).placeholder = some (.ofAddress q) from rfl,
    Symbols.create_ofAddress hp, Symbols.create_ofAddress hq]
  show together.Agree (Twin []) (options.withStart.firstCursor >>= _)
    (options.withStart.firstCursor >>= _)
  cases options.withStart.firstCursor with
  | error fault => exact .together_error fault
  | ok cursor =>
      show together.Agree (Twin []) (options.withStart.firstImage >>= _)
        (options.withStart.firstImage >>= _)
      cases options.withStart.firstImage with
      | error fault => exact .together_error fault
      | ok memory =>
          exact .ok
            { symbols := ⟨q, rfl⟩, cursor := rfl, pass := rfl, outerOwner := rfl, scopes := rfl
              instructions := rfl, marks := ⟨rfl, rfl, rfl⟩, bounds := ⟨rfl, rfl⟩, written := rfl
              owners := fun _ => rfl, cells := fun _ _ => rfl }

namespace Source

/-- Where the discovery of a text writes and its final pass, completed, does not. -/
def LeftBehind (source : String) (options : Options) (a : UInt16) : Prop :=
  ∃ statements s last f, parse source = .ok statements ∧ Session.create options.withStart = .ok s ∧
    (runAll statements).exec s = (.ok (), last) ∧ (runAll statements).exec last.turned = (.ok (), f) ∧
    a ∈ last.written.map (·.address) ∧ a ∉ f.written.map (·.address)

/-- If the final pass begins where discovery began, and completes, it has written wherever discovery did. -/
theorem not_leftBehind {source : String} {options : Options}
    (hfresh : ∀ c, options.cursor = some c → c.position = .ofAddress c.start)
    (hstarts : ∀ statements s, parse source = .ok statements → Session.create options.withStart = .ok s →
      (instructionStarts (completed statements s)).Nodup) (a : UInt16) :
    ¬LeftBehind source options a := by
  rintro ⟨statements, s, last, f, hparse, hcreate, hdiscovery, hfinal, hmem, hout⟩
  have hnodup := hstarts statements s hparse hcreate
  rcases (retrace_created hfresh hcreate hdiscovery hnodup).2 with ⟨f', hf', h⟩ | ⟨_, _, _, hf', -⟩
  · rw [hfinal] at hf'
    obtain rfl : f = f' := congrArg Prod.snd hf'
    rw [h.written] at hout
    exact hout hmem
  · rw [hfinal] at hf'
    cases congrArg Prod.fst hf'

/-- With two placeholders a text fails in the same way, or it compiles to the same but for the bytes that
    discovery leaves behind. -/
theorem assemble_agree {source : String} {options : Options} {p q : UInt16} (hp : 256 ≤ p) (hq : 256 ≤ q)
    (hplain : ∀ statements, parse source = .ok statements →
      ∀ st ∈ statements, st.offsetsBytePart = false) :
    (∃ fault, (assemble source (options.withPlaceholder p)).1 = .error fault ∧
      (assemble source (options.withPlaceholder q)).1 = .error fault) ∨
    ∃ c c', (assemble source (options.withPlaceholder p)).1 = .ok c ∧
      (assemble source (options.withPlaceholder q)).1 = .ok c' ∧
      c.EqualApart (LeftBehind source (options.withPlaceholder p)) c' := by
  cases hparse : parse source with
  | error fault =>
      simp only [assemble, hparse]
      exact Or.inl ⟨fault, rfl, rfl⟩
  | ok statements =>
      have hall := hplain statements hparse
      rcases (Session.create_twin options hp hq).together_cases with
        ⟨s, t, hs, ht, h⟩ | ⟨fault, hs, ht⟩
      · rw [fst_assemble hparse hs, fst_assemble hparse ht]
        rcases twin_cases hall h with ⟨last, last', hd, hd', hlast⟩ | ⟨fault, _, _, hd, hd'⟩
        · have hpass : last.pass = .discovery :=
            ((leads_runAll statements).of_exec hd).pass.trans (Session.isNew_of_create hs).pass
          have hpass' := hlast.pass.trans hpass
          rcases twin_cases hall (hlast.turned hpass) with ⟨f, f', hf, hf', hend⟩ | ⟨fault, _, _, hf, hf'⟩
          · obtain ⟨r, hsymbols⟩ := hend.symbols
            have hfinal : f.pass = .final := by
              obtain ⟨_, hturned⟩ := Session.turned_eq hpass
              exact ((leads_runAll statements).of_exec hf).pass.trans (by rw [hturned])
            have hdrifts : f'.symbols.drifts = f.symbols.drifts := by
              rw [hsymbols]
              rfl
            rw [Assembly.bothPasses_of_ok hd hpass hf, Assembly.bothPasses_of_ok hd' hpass' hf',
              hlast.statistics, hend.statistics, hdrifts]
            cases passDifferences last.statistics f.statistics f.symbols.drifts with
            | cons _ _ => exact Or.inl ⟨_, rfl, rfl⟩
            | nil =>
                refine Or.inr ⟨_, _, rfl, rfl, ?_⟩
                have hequal := hend.result hfinal last.statistics f.statistics
                refine { hequal with cells := fun a ha => hequal.cells a ?_ }
                rintro ⟨hmem, hout⟩
                exact ha ⟨statements, s, last, f, hparse, hs, hd, hf, hmem, hout⟩
          · rw [Assembly.bothPasses_of_final_error hd hpass hf,
              Assembly.bothPasses_of_final_error hd' hpass' hf']
            exact Or.inl ⟨fault, rfl, rfl⟩
        · rw [Assembly.bothPasses_of_discovery_error hd, Assembly.bothPasses_of_discovery_error hd']
          exact Or.inl ⟨fault, rfl, rfl⟩
      · simp only [assemble, hparse, compile, hs, ht]
        exact Or.inl ⟨fault, rfl, rfl⟩

/-- A text in which no direct operand is a byte part with constants added or subtracted, and whose discovery
    starts no two instructions at one place, fails in the same way with any placeholder, or it compiles to
    the same but for the bytes that discovery leaves behind. It leaves none behind unless a cursor is
    supplied that does not stand at its start. -/
theorem assemble_placeholder_independent {source : String} {options : Options} {p q : UInt16}
    (hp : 256 ≤ p) (hq : 256 ≤ q)
    (hplain : ∀ statements, parse source = .ok statements →
      ∀ st ∈ statements, st.offsetsBytePart = false)
    (hstarts : ∀ statements s, parse source = .ok statements →
      Session.create (options.withPlaceholder p).withStart = .ok s →
      (instructionStarts (completed statements s)).Nodup) :
    ((∃ fault, (assemble source (options.withPlaceholder p)).1 = .error fault ∧
        (assemble source (options.withPlaceholder q)).1 = .error fault) ∨
      ∃ c c', (assemble source (options.withPlaceholder p)).1 = .ok c ∧
        (assemble source (options.withPlaceholder q)).1 = .ok c' ∧
        c.EqualApart (LeftBehind source (options.withPlaceholder p)) c') ∧
    ((∀ c, options.cursor = some c → c.position = .ofAddress c.start) →
      (assemble source (options.withPlaceholder p)).1 =
        (assemble source (options.withPlaceholder q)).1) := by
  have hagree := @assemble_agree source options p q hp hq hplain
  refine ⟨hagree, fun hfresh => ?_⟩
  rcases hagree with ⟨fault, hfirst, hsecond⟩ | ⟨c, c', hfirst, hsecond, hequal⟩
  · rw [hfirst, hsecond]
  · rw [hfirst, hsecond, hequal.eq (not_leftBehind hfresh hstarts)]

/-- The session in which a text is compiled with the placeholder `0x012C`. -/
def lowSession : Session := { plainSession with symbols := plainSession.symbols.withPlaceholder 0x012C }

theorem forward_references_ignore_placeholder :
    parse forwardSample = .ok forwardStatements ∧
    (∀ st ∈ forwardStatements, st.offsetsBytePart = false) ∧
    Session.create (({} : Options).withPlaceholder 0x012C).withStart = .ok lowSession ∧
    instructionStarts (completed forwardStatements lowSession) = [0x1000, 0x1003, 0x1005, 0x1009] ∧
    (assemble forwardSample (({} : Options).withPlaceholder 0x012C)).1.map (·.start) = .ok 0x1000 ∧
    (assemble forwardSample (({} : Options).withPlaceholder 0x012C)).1 =
      (assemble forwardSample (({} : Options).withPlaceholder 0xFFFF)).1 := by
  have hparse : parse forwardSample = .ok forwardStatements := by decide +kernel
  have hplain : ∀ st ∈ forwardStatements, st.offsetsBytePart = false := by decide +kernel
  have hcreate : Session.create (({} : Options).withPlaceholder 0x012C).withStart = .ok lowSession := rfl
  have hstarts : instructionStarts (completed forwardStatements lowSession) =
      [0x1000, 0x1003, 0x1005, 0x1009] := by decide +kernel
  refine ⟨hparse, hplain, hcreate, hstarts, by decide +kernel, ?_⟩
  refine (assemble_placeholder_independent (by decide) (by decide) ?_ ?_).2 (fun c hc => nomatch hc)
  · intro statements h
    rw [hparse] at h
    rw [← Except.ok.inj h]
    exact hplain
  · intro statements s h h'
    rw [hparse] at h
    rw [hcreate] at h'
    rw [← Except.ok.inj h, ← Except.ok.inj h', hstarts]
    decide

/-- A text that refers to a label below it, and goes on there. -/
def awaySample : String := " .WORD fwd\n .ORG $3000\nfwd: RTS\n"

/-- A cursor that starts at `0x1000` and was moved to `0x2000`. -/
def movedCursor : Cursor := ⟨0x1000, 0x2000, ⟨0, 0, 0, 0⟩⟩

def movedOptions : Options := { cursor := some movedCursor }

/-- The statements of `awaySample`. -/
def awayStatements : List Statement := (parse awaySample).toOption.getD []

/-- The session in which a text is compiled with the moved cursor. -/
def movedSession : Session := { plainSession with cursor := movedCursor, memory := ⟨∅, none, none⟩ }

/-- Discovery writes the placeholder where the moved cursor stands, the final pass writes the label at its
    start, and both are kept. -/
theorem moved_cursor_shows_placeholder :
    parse awaySample = .ok awayStatements ∧
    (∀ st ∈ awayStatements, st.offsetsBytePart = false) ∧
    Session.create (movedOptions.withPlaceholder 0x3039).withStart = .ok movedSession ∧
    instructionStarts (completed awayStatements movedSession) = [0x3000] ∧
    (assemble awaySample (movedOptions.withPlaceholder 0x3039)).1.map
      (fun c => (c.memory.slice 0x1000 0x1001, c.memory.slice 0x2000 0x2001)) =
        .ok ([0x00, 0x30], [0x39, 0x30]) ∧
    (assemble awaySample (movedOptions.withPlaceholder 0x0100)).1.map
      (fun c => (c.memory.slice 0x1000 0x1001, c.memory.slice 0x2000 0x2001)) =
        .ok ([0x00, 0x30], [0x00, 0x01]) := by
  refine ⟨?_, ?_, rfl, ?_, ?_, ?_⟩ <;> decide +kernel

end Source

end Asm6502
