import Asm6502.Output.Prg
import Asm6502.Proofs.Layout
import Asm6502.Proofs.Ownership

/-!
# Exported bytes

A compilation exports a range of its image. The range starts where the image says, or else where the
cursor started. It ends where the image says, or else with the last written cell. Whatever the two ends
are, the exported bytes are those between them, in order and with zeros where nothing is written, and the
PRG file of a compilation gives them back.

* `Session.le_exportFinish`, `Session.exists_cell_exportFinish`: without an end that was set, the export
  reaches the last written cell and goes no further.
* `Compilation.readPrg_prg`: the PRG file of a compilation can be written and read back.
* `Command.setsFinish`: the commands that set an end; no other command changes it.
* `serialization_is_faithful`: all of this for compilations.
-/

namespace Asm6502

open Asm6502.Action (Moves)

-- ── The ends of the export ──────────────────────────────────────────────────

/-- An image without cells has no written range; that of any other ends with its last cell. -/
theorem Image.writtenRange_cases (m : Image) :
    (∀ a, m.cell? a = none) ∧ m.writtenRange = none ∨
    ∃ first last cell, m.writtenRange = some (first, last) ∧ m.cell? last = some cell ∧
      ∀ a cell, m.cell? a = some cell → a ≤ last := by
  cases hmax : m.cells.maxKey? with
  | none =>
      rw [Std.ExtTreeMap.maxKey?_eq_none_iff] at hmax
      have hempty : ∀ a, m.cell? a = none := by
        intro a
        rw [cell?, hmax, Std.ExtTreeMap.getElem?_empty]
      exact Or.inl ⟨hempty, writtenRange_of_none hempty⟩
  | some last =>
      rw [Std.ExtTreeMap.maxKey?_eq_some_iff_mem_and_forall] at hmax
      obtain ⟨hmem, hall⟩ := hmax
      have hlast : (m.cell? last).isSome = true := Std.ExtTreeMap.mem_iff_isSome_getElem?.mp hmem
      have hbefore : ∀ a, (m.cell? a).isSome = true → a ≤ last := by
        intro a ha
        have hle := hall a (Std.ExtTreeMap.mem_iff_isSome_getElem?.mpr ha)
        rwa [Std.isLE_compare] at hle
      obtain ⟨first, hrange⟩ := writtenRange_of_last hlast hbefore
      obtain ⟨cell, hcell⟩ := Option.isSome_iff_exists.mp hlast
      exact Or.inr ⟨first, last, cell, hrange, hcell, fun a cell ha => hbefore a (ha ▸ rfl)⟩

namespace Session

variable {s : Session}

/-- The export ends at an address, or before the first one. -/
theorem exportFinish_bounds (s : Session) : -1 ≤ s.exportFinish ∧ s.exportFinish ≤ 65535 := by
  have hstart := s.exportStart.toNat_lt
  unfold exportFinish
  dsimp only
  split
  · rename_i finish _
    have hfinish := finish.toNat_lt
    omega
  · split
    · rename_i last _
      have hlast := last.toNat_lt
      omega
    · omega

/-- If no end is set, every cell lies before the end. -/
theorem le_exportFinish (hopen : s.memory.finish = none) {a : UInt16} {cell : Cell}
    (h : s.memory.cell? a = some cell) : (a.toNat : Int) ≤ s.exportFinish := by
  rcases s.memory.writtenRange_cases with ⟨hnone, -⟩ | ⟨first, last, _, hrange, -, hall⟩
  · rw [hnone a] at h
    exact nomatch h
  · have hle : a.toNat ≤ last.toNat := hall a cell h
    simp only [exportFinish, hopen, hrange]
    omega

/-- If no end is set and something is exported, the last exported cell is written. -/
theorem exists_cell_exportFinish (hopen : s.memory.finish = none)
    (h : (s.exportStart.toNat : Int) ≤ s.exportFinish) :
    ∃ a cell, s.exportFinish = a.toNat ∧ s.memory.cell? a = some cell := by
  rcases s.memory.writtenRange_cases with ⟨-, hrange⟩ | ⟨first, last, cell, hrange, hcell, -⟩
  · simp only [exportFinish, hopen, hrange] at h
    omega
  · simp only [exportFinish, hopen, hrange] at h ⊢
    exact ⟨last, cell, by omega, hcell⟩

section Result

variable (discovery final : PassStatistics)

/-- What is exported: the bytes from the start to the end. -/
theorem bytes_result (s : Session) :
    (s.result discovery final).bytes =
      (List.range (s.exportFinish - s.exportStart.toNat + 1).toNat).map
        (fun i => s.memory.byteAt (s.exportStart.toNat + i)) :=
  s.memory.slice_eq s.exportStart s.exportFinish_bounds.1 s.exportFinish_bounds.2

theorem length_bytes_result (s : Session) :
    (s.result discovery final).bytes.length = (s.exportFinish - s.exportStart.toNat + 1).toNat := by
  rw [bytes_result, List.length_map, List.length_range]

theorem getElem?_bytes_result {i : Nat} (hi : i < (s.result discovery final).bytes.length) :
    (s.result discovery final).bytes[i]? = some (s.memory.byteAt (s.exportStart.toNat + i)) := by
  rw [length_bytes_result] at hi
  rw [bytes_result, List.getElem?_map, List.getElem?_range hi, Option.map_some]

/-- If no end is set, the cells from the start on are exported. -/
theorem getElem?_bytes_of_cell (hopen : s.memory.finish = none) {a : UInt16} {cell : Cell}
    (h : s.memory.cell? a = some cell) (hstart : s.exportStart ≤ a) :
    (s.result discovery final).bytes[a.toNat - s.exportStart.toNat]? = some cell.value := by
  have hle : s.exportStart.toNat ≤ a.toNat := hstart
  have hlast := le_exportFinish hopen h
  rw [getElem?_bytes_result discovery final (by rw [length_bytes_result]; omega),
    Nat.add_sub_cancel' hle, Image.byteAt_of_cell h]

/-- If no end is set, the last exported byte is that of a written cell. -/
theorem exists_cell_of_bytes (hopen : s.memory.finish = none)
    (h : (s.result discovery final).bytes ≠ []) :
    ∃ a cell, s.exportStart.toNat + (s.result discovery final).bytes.length = a.toNat + 1 ∧
      s.memory.cell? a = some cell := by
  have hlength := List.length_pos_iff.mpr h
  rw [length_bytes_result] at hlength ⊢
  obtain ⟨a, cell, ha, hcell⟩ := exists_cell_exportFinish hopen (by omega)
  exact ⟨a, cell, by omega, hcell⟩

end Result

end Session

-- ── PRG files ───────────────────────────────────────────────────────────────

/-- An address is made of its low and its high byte. -/
theorem ofNat_lowByte_highByte (a : UInt16) :
    UInt16.ofNat ((lowByte a).toNat + 256 * (highByte a).toNat) = a := by
  have ha := a.toNat_lt
  rw [← UInt16.toNat_inj, UInt16.toNat_ofNat', lowByte, highByte, UInt8.toNat_ofNat', UInt8.toNat_ofNat']
  omega

/-- The PRG file of a compilation can be written: where it starts, and the exported range. -/
theorem Compilation.prg_eq (c : Compilation) :
    c.prg = .ok (lowByte c.start :: highByte c.start ::
      c.memory.slice (.ofAddress c.start) (.ofInt c.finish)) := by
  rw [Compilation.prg, Image.prg, checkWord_eq_ok_iff.mpr rfl]
  rfl

/-- The PRG file of a compilation gives back where its bytes start and the bytes. -/
theorem Compilation.readPrg_prg (c : Compilation) :
    ∃ file, c.prg = .ok file ∧
      readPrg file = some (c.start, c.memory.slice (.ofAddress c.start) (.ofInt c.finish)) := by
  refine ⟨_, c.prg_eq, ?_⟩
  rw [readPrg, ofNat_lowByte_highByte]

-- ── Who sets an end ─────────────────────────────────────────────────────────

/-- Whether options set an end of the export. A supplied image has its own. -/
def Options.setsFinish (options : Options) : Bool :=
  match options.memory with
  | some m => m.finish.isSome
  | none => options.finish.isSome

/-- Commands that set an end of the export. -/
def Command.setsFinish : Command → Bool
  | .setup options => options.finish.isSome
  | .memory (.setRange _ _) => true
  | _ => false

/-- The end of the export is as before. -/
def Session.SameFinish (s t : Session) : Prop := t.memory.finish = s.memory.finish

namespace Session.SameFinish

theorem refl (s : Session) : s.SameFinish s := rfl

theorem trans (r s t : Session) (h : r.SameFinish s) (h' : s.SameFinish t) : r.SameFinish t :=
  Eq.trans h' h

theorem resolve (name : String) : Moves Session.SameFinish (Assembly.resolve name) :=
  Assembly.moves_resolve (fun s _ => refl s) name

theorem of_writes {s t : Session} {address value : Number} {owner : String} {answer : Except Fault Unit}
    (h : s.Writes address value owner answer t) : s.SameFinish t := by
  cases h with
  | @done w _ _ _ hmemory =>
      show t.memory.finish = (s.memory.put w).finish
      rw [hmemory]
  | refused fault => exact refl s

theorem storeByte (address value : Number) :
    Moves Session.SameFinish (Assembly.storeByte address value) :=
  fun _ => of_writes (writes_storeByte rfl)

theorem operations : FollowedByOperations Session.SameFinish where
  refl := refl
  trans := trans
  resolve := resolve
  evaluate := Assembly.moves_evaluate refl trans resolve
  storeByte := storeByte
  emitByte := Assembly.moves_emitByte refl trans storeByte (fun _ => rfl)
  label := Assembly.moves_label (fun s _ => refl s)
  org _ _ := rfl
  pin _ _ := rfl
  countInstruction _ := rfl
  entrypoint _ := rfl

theorem marks : FollowedByMarks Session.SameFinish where
  toFollowedByCode := operations.toFollowedByCode
  pinAt _ _ _ := rfl
  marks _ _ _ := rfl
  record _ _ _ := rfl

/-- Commands on the image leave the end alone, but for the one that sets the range. -/
theorem memory {command : MemoryCommand} (h : (Command.memory command).setsFinish = false) :
    Moves Session.SameFinish (Assembly.onMemory command.run) := by
  intro s
  cases command with
  | write address value owner => exact of_writes (writes_image rfl)
  | setRange start finish => exact nomatch h
  | prg start finish =>
      rw [Assembly.onMemory, Action.exec_onPart, MemoryCommand.run,
        Action.exec_bind_of_ok (Action.exec_get _)]
      cases s.memory.prg start finish <;> rfl
  | _ => rfl

theorem setup {options : Assembly.Setup} (h : options.finish = none) :
    Moves Session.SameFinish (Assembly.setup options) := by
  intro s
  rw [Assembly.exec_setup]
  cases s.cursor.setStart options.start with
  | error fault => exact refl s
  | ok cursor =>
      simp only [Image.declared, h]
      rfl

theorem beginFinal : Moves Session.SameFinish Assembly.beginFinal := by
  refine Moves.withState (fun s => ?_)
  cases s.pass <;> rfl

/-- A command without a body leaves the end alone, unless it is one that sets it. -/
theorem leaf {render : Nat → Assembly Unit} (hrender : ∀ serial, Moves Session.SameFinish (render serial))
    {c : Command} (hleaf : c.isLeaf = true) (hc : c.setsFinish = false) :
    Moves Session.SameFinish (c.run render) := by
  cases c with
  | cursor command => exact fun s => rfl
  | memory command => exact memory hc
  | setup options =>
      have hopen : options.finish = none := Option.not_isSome_iff_eq_none.mp (Bool.eq_false_iff.mp hc)
      exact Moves.answering refl trans (setup hopen) _
  | endPass => exact fun s => rfl
  | beginFinal => exact Moves.answering refl trans beginFinal _
  | render serial => exact Moves.answering refl trans (hrender serial) _
  | symbols _ | breakHere | breakOnMemory _ _ | breakOnRaster _ | watch _ => exact marks.run render rfl
  | withOwner _ _ | subroutine _ _ | onlyIn _ _ | ifDefined _ _ | attempt _ | traced _ _ =>
      exact nomatch hleaf
  | _ => exact operations.run render rfl

theorem runAll {render : Nat → Assembly Unit}
    (hrender : ∀ serial, Moves Session.SameFinish (render serial)) {commands : List Command}
    (hc : Command.everyOf (fun c => !c.setsFinish) commands = true) :
    Moves Session.SameFinish (Command.runAll render commands) := by
  refine Command.moves_runAll marks (fun owner body hbody s => ?_) ?_ commands hc
  · exact hbody { s with scopes := owner :: s.scopes }
  · intro c hleaf hkind
    exact leaf hrender hleaf (by simpa using hkind)

theorem render {catalogue : Catalogue}
    (hparts : ∀ c ∈ catalogue, Command.everyOf (fun c => !c.setsFinish) c.code = true)
    (depth serial : Nat) : Moves Session.SameFinish (catalogue.render depth serial) := by
  refine Catalogue.moves_render refl trans (fun _ _ => rfl) (fun c hc depth hrender s => ?_) depth serial
  exact runAll hrender (hparts c hc) { s with scopes := c.id :: s.scopes }

end Session.SameFinish

theorem Session.finish_of_create {options : Options} {s : Session}
    (hopen : options.setsFinish = false) (h : Session.create options.withStart = .ok s) :
    s.memory.finish = none := by
  obtain ⟨cursor, -, h⟩ := Check.bind_eq_ok h
  obtain ⟨memory, himage, h⟩ := Check.bind_eq_ok h
  obtain ⟨symbols, -, h⟩ := Check.bind_eq_ok h
  rw [← Except.ok.inj h]
  show memory.finish = none
  have hsame : options.withStart.memory = options.memory ∧ options.withStart.finish = options.finish := by
    unfold Options.withStart
    cases options.cursor <;> exact ⟨rfl, rfl⟩
  unfold Options.firstImage at himage
  unfold Options.setsFinish at hopen
  rw [hsame.1, hsame.2] at himage
  cases hmemory : options.memory with
  | some m =>
      rw [hmemory] at himage hopen
      rw [← Except.ok.inj himage]
      exact Option.not_isSome_iff_eq_none.mp (Bool.eq_false_iff.mp hopen)
  | none =>
      rw [hmemory] at himage hopen
      obtain ⟨start, -, himage⟩ := Check.bind_eq_ok himage
      rw [Option.not_isSome_iff_eq_none.mp (Bool.eq_false_iff.mp hopen)] at himage
      rw [← Except.ok.inj himage]

/-- If neither options nor commands set an end of the export, those of components included, then the
    image has none after both passes. -/
theorem finish_of_compile {catalogue : Catalogue} {commands : List Command} {options : Options}
    {c : Compilation} (h : (compile (catalogue.runAll commands) options).1 = .ok c)
    (hoptions : options.setsFinish = false)
    (hcommands : Command.everyOf (fun c => !c.setsFinish) commands = true)
    (hparts : ∀ part ∈ catalogue, Command.everyOf (fun c => !c.setsFinish) part.code = true) :
    c.memory.finish = none := by
  obtain ⟨s, last, f, hcreate, hdiscovery, hpass, hfinal, -, rfl⟩ := compile_eq_ok h
  have hmoves : Moves Session.SameFinish (catalogue.runAll commands) :=
    .runAll (.render hparts _) hcommands
  have hlast : last.memory.finish = s.memory.finish := hmoves.of_exec hdiscovery
  have hf : f.memory.finish = last.turned.memory.finish := hmoves.of_exec hfinal
  obtain ⟨journal, hturned⟩ := Session.turned_eq hpass
  calc f.memory.finish = last.turned.memory.finish := hf
    _ = last.memory.finish := by rw [hturned]
    _ = s.memory.finish := hlast
    _ = none := Session.finish_of_create hoptions hcreate

-- ── What a compilation exports ──────────────────────────────────────────────

/-- Of every compilation that succeeds, the exported bytes are those of the cells from its start, which is
    an address, to its end, with zeros where nothing is written, and its PRG file can be written and gives
    back the start and the bytes. If the image has no end of its own, all cells from the start on are
    exported, and the last exported byte is that of a written cell; and it has none if neither options nor
    commands set one. -/
theorem serialization_is_faithful :
    (∀ program options c, (compile program options).1 = .ok c →
      c.start.toNat ≤ 65535 ∧
      (c.bytes.length : Int) = max 0 (c.finish - c.start.toNat + 1) ∧ c.bytes.length ≤ 65536 ∧
      (∀ i < c.bytes.length, c.bytes[i]? = some (c.memory.byteAt (c.start.toNat + i))) ∧
      (∃ file, c.prg = .ok file ∧ readPrg file = some (c.start, c.bytes)) ∧
      (c.memory.finish = none →
        (∀ a cell, c.memory.cell? a = some cell → c.start ≤ a →
          c.bytes[a.toNat - c.start.toNat]? = some cell.value) ∧
        (c.bytes ≠ [] → ∃ a cell, c.start.toNat + c.bytes.length = a.toNat + 1 ∧
          c.memory.cell? a = some cell))) ∧
    (∀ (catalogue : Catalogue) commands options c,
      (compile (catalogue.runAll commands) options).1 = .ok c → options.setsFinish = false →
      Command.everyOf (fun c => !c.setsFinish) commands = true →
      (∀ part ∈ catalogue, Command.everyOf (fun c => !c.setsFinish) part.code = true) →
      c.memory.finish = none) := by
  refine ⟨fun program options c h => ?_, fun catalogue commands options c => finish_of_compile⟩
  obtain ⟨s, last, f, -, -, -, -, -, rfl⟩ := compile_eq_ok h
  have hlength := f.length_bytes_result last.statistics f.statistics
  have hstart := f.exportStart.toNat_lt
  have hbounds := f.exportFinish_bounds
  refine ⟨by show f.exportStart.toNat ≤ 65535; omega, ?_, by omega, ?_,
    Compilation.readPrg_prg _, fun hopen => ⟨?_, ?_⟩⟩
  · rw [hlength]
    show _ = max 0 (f.exportFinish - f.exportStart.toNat + 1)
    omega
  · exact fun i hi => Session.getElem?_bytes_result _ _ hi
  · exact fun a cell hcell hle => Session.getElem?_bytes_of_cell _ _ hopen hcell hle
  · exact Session.exists_cell_of_bytes _ _ hopen

/-- A program with cells on both sides of its start and a gap between those after it. -/
def scatteredCells : List Command :=
  [.setup ⟨0x2000, none, none⟩, .byte [.number 1, .number 2], .org 0x2004, .byte [.number 5],
    .org 0x1FF0, .byte [.number 9]]

theorem scattered_cells_are_exported :
    ∃ c, (compile (Catalogue.runAll [] scatteredCells) {}).1 = .ok c ∧
      c.start = 0x2000 ∧ c.memory.finish = none ∧
      c.memory.cell? 0x1FF0 = some ⟨9, "main"⟩ ∧ c.bytes[0]? = some 1 ∧ c.bytes[4]? = some 5 ∧
      (∃ file, c.prg = .ok file ∧ readPrg file = some (c.start, c.bytes)) ∧
      ∃ a cell, c.start.toNat + c.bytes.length = a.toNat + 1 ∧ c.memory.cell? a = some cell := by
  have hmade : (compile (Catalogue.runAll [] scatteredCells) {}).1.map (fun c =>
      (c.start, c.memory.cell? 0x1FF0, c.memory.cell? 0x2000, c.memory.cell? 0x2004)) =
      .ok (0x2000, some ⟨9, "main"⟩, some ⟨1, "main"⟩, some ⟨5, "main"⟩) := by decide +kernel
  obtain ⟨c, h⟩ := Check.exists_of_map hmade
  rw [h] at hmade
  obtain ⟨hstart, hcells⟩ := Prod.mk.inj (Except.ok.inj hmade)
  obtain ⟨hbelow, hcells⟩ := Prod.mk.inj hcells
  obtain ⟨hfirst, hfifth⟩ := Prod.mk.inj hcells
  obtain ⟨hall, hnever⟩ := serialization_is_faithful
  have hopen := hnever [] scatteredCells {} c h rfl (by decide) (fun _ hpart => nomatch hpart)
  obtain ⟨-, -, -, -, hprg, hexport⟩ := hall _ _ c h
  obtain ⟨hincluded, hlast⟩ := hexport hopen
  have hone := hincluded 0x2000 _ hfirst (by rw [hstart]; decide)
  have hfive := hincluded 0x2004 _ hfifth (by rw [hstart]; decide)
  rw [hstart] at hone hfive
  refine ⟨c, h, hstart, hopen, hbelow, hone, hfive, hprg, hlast ?_⟩
  rintro hempty
  rw [hempty] at hone
  exact nomatch hone

end Asm6502
