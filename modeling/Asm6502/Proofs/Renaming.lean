import Mathlib.Data.Set.Function
import Asm6502.Proofs.Failures
import Asm6502.Proofs.SharedPlaces

/-!
# Renaming labels

A renaming changes the names in a program: where they are defined, assigned and used. If it keeps different
names of the program apart, everything goes as before, step by step: the same bytes at the same addresses,
the same table of labels under new names, and where the program fails, the same fault about the new name.

* `Operand.rename`, `Source.Statement.rename`, `Symbols.rename`, `Fault.rename`, `Compilation.rename`: what
  renaming makes of programs and of what they lead to.
* `Table.find?_mapKeys`, `Table.mapKeys_insert`: tables under a renaming of their keys.
* `Symbols.Renamed`: two tables that differ by a renaming, of names that it keeps apart.
* `Source.renamed_paired`, `Source.renamed_run`: statements before and after a renaming, side by side.
* `renaming_labels_renames_the_outcome`: a compilation before and after.
-/

namespace Asm6502

open Asm6502.Action (Coupled Parting)

-- ── What is renamed ─────────────────────────────────────────────────────────

namespace Operand

/-- An operand with other names. -/
def rename (ρ : String → String) : Operand → Operand
  | .number v => .number v
  | .name n => .name (ρ n)
  | .label n => .label (ρ n)
  | .here => .here
  | .add l r => .add (l.rename ρ) (r.rename ρ)
  | .sub l r => .sub (l.rename ρ) (r.rename ρ)
  | .low o => .low (o.rename ρ)
  | .high o => .high (o.rename ρ)

theorem names_rename (ρ : String → String) (o : Operand) : (o.rename ρ).names = o.names.map ρ := by
  induction o with
  | number v => rfl
  | name n => rfl
  | label n => rfl
  | here => rfl
  | add l r ihl ihr => rw [rename, names, names, List.map_append, ihl, ihr]
  | sub l r ihl ihr => rw [rename, names, names, List.map_append, ihl, ihr]
  | low o ih => exact ih
  | high o ih => exact ih

/-- The form of an operand has nothing to do with names. -/
theorem isBytePart_rename (ρ : String → String) (o : Operand) :
    (o.rename ρ).isBytePart = o.isBytePart := by
  have hnumber : ∀ o : Operand, (o.rename ρ).isNumber = o.isNumber := by
    intro o
    cases o <;> rfl
  induction o with
  | number v => rfl
  | name n => rfl
  | label n => rfl
  | here => rfl
  | add l r ihl ihr => rw [rename, isBytePart, isBytePart, ihl, ihr, hnumber, hnumber]
  | sub l r ihl ihr => rw [rename, isBytePart, isBytePart, ihl, hnumber]
  | low o ih => rfl
  | high o ih => rfl

end Operand

namespace Source

/-- An operand as it is written, with other names. -/
def OperandSyntax.rename (ρ : String → String) : OperandSyntax → OperandSyntax
  | .accumulator => .accumulator
  | .immediate o => .immediate (o.rename ρ)
  | .direct o index => .direct (o.rename ρ) index
  | .indirect o => .indirect (o.rename ρ)
  | .indexedIndirect o => .indexedIndirect (o.rename ρ)
  | .indirectIndexed o => .indirectIndexed (o.rename ρ)

/-- The names in an operand as it is written. -/
def OperandSyntax.names : OperandSyntax → List String
  | .accumulator => []
  | .immediate o => o.names
  | .direct o _ => o.names
  | .indirect o => o.names
  | .indexedIndirect o => o.names
  | .indirectIndexed o => o.names

/-- An argument of a directive with other names; a text stays. -/
def DirectiveArgument.rename (ρ : String → String) : DirectiveArgument → DirectiveArgument
  | .text content => .text content
  | .value o => .value (o.rename ρ)

/-- The names in an argument of a directive. -/
def DirectiveArgument.names : DirectiveArgument → List String
  | .text _ => []
  | .value o => o.names

/-- What a statement says with other names. -/
def Statement.Body.rename (ρ : String → String) : Statement.Body → Statement.Body
  | .label n => .label (ρ n)
  | .assignment n o => .assignment (ρ n) (o.rename ρ)
  | .instruction m operand => .instruction m (operand.map (OperandSyntax.rename ρ))
  | .directive d args => .directive d (args.map (DirectiveArgument.rename ρ))

/-- The names in a statement. -/
def Statement.Body.names : Statement.Body → List String
  | .label n => [n]
  | .assignment n o => n :: o.names
  | .instruction _ operand => (operand.map OperandSyntax.names).getD []
  | .directive _ args => args.flatMap DirectiveArgument.names

/-- A statement with other names, where it was. -/
def Statement.rename (ρ : String → String) (st : Statement) : Statement :=
  { st with body := st.body.rename ρ }

/-- The names in a program. -/
def namesOf (statements : List Statement) : List String := statements.flatMap (·.body.names)

end Source

/-- The table with other keys, in the same order. -/
def Table.mapKeys {κ κ' ν : Type} (f : κ → κ') (t : Table κ ν) : Table κ' ν :=
  ⟨t.toList.map (fun entry => (f entry.1, entry.2))⟩

/-- A reference to another name, at the same place. -/
def Reference.rename (ρ : String → String) (r : Reference) : Reference := { r with name := ρ r.name }

/-- The drift of another name, by as much. -/
def Drift.rename (ρ : String → String) (d : Drift) : Drift := { d with name := ρ d.name }

/-- The symbol table with other names. -/
def Symbols.rename (ρ : String → String) (s : Symbols) : Symbols :=
  { s with
    labels := s.labels.mapKeys ρ
    references := s.references.map (Reference.rename ρ)
    drifts := s.drifts.map (Drift.rename ρ) }

/-- A difference of the passes, with the other name of its label. -/
def PassDifference.rename (ρ : String → String) : PassDifference → PassDifference
  | .label name before after => .label (ρ name) before after
  | difference => difference

/-- A quantity of a program with other names. -/
def Subject.rename (ρ : String → String) : Subject → Subject
  | .valueOf name => .valueOf (ρ name)
  | subject => subject

/-- The same fault about other names. -/
def Fault.rename (ρ : String → String) : Fault → Fault
  | .duplicateLabel name => .duplicateLabel (ρ name)
  | .undefinedLabel name => .undefinedLabel (ρ name)
  | .notYetDefined subject => .notYetDefined (subject.rename ρ)
  | .passMismatch differences => .passMismatch (differences.map (PassDifference.rename ρ))
  | .located p cause => .located p (cause.rename ρ)
  | fault => fault

/-- What a compilation made, with other names in its labels and references. -/
def Compilation.rename (ρ : String → String) (c : Compilation) : Compilation :=
  { c with
    labels := c.labels.mapKeys ρ
    references := c.references.map (Reference.rename ρ) }

-- ── Faults and checks ───────────────────────────────────────────────────────

section Checks

variable {α β : Type} (ρ : String → String)

theorem Fault.Plain.rename {fault : Fault} (h : fault.Plain) : fault.rename ρ = fault := by
  cases fault <;> first | rfl | exact h.elim

theorem Fault.OfOptions.rename {fault : Fault} (h : fault.OfOptions) : fault.rename ρ = fault := by
  cases fault <;> first | rfl | exact h.elim

theorem Check.mapError_bind (F : Fault → Fault) (c : Except Fault α) (next : α → Except Fault β) :
    (c >>= next).mapError F = c.mapError F >>= fun a => (next a).mapError F := by
  cases c <;> rfl

/-- A check whose faults name no label comes out the same. -/
theorem Check.Raises.mapError {c : Except Fault α} (h : Check.Raises Fault.Plain c) :
    c.mapError (Fault.rename ρ) = c := by
  cases hc : c with
  | ok a => rfl
  | error fault => exact congrArg Except.error ((h fault hc).rename ρ)

/-- The position of a statement has nothing to do with names. -/
theorem Source.atStatement_rename (p : Source.Position) (fault : Fault) :
    Source.atStatement p (fault.rename ρ) = (Source.atStatement p fault).rename ρ := by
  have hlocated : (fault.rename ρ).isLocated = fault.isLocated := by
    cases fault <;> rfl
  unfold Source.atStatement
  rw [hlocated]
  split <;> rfl

theorem passDifferences_rename (discovery final : PassStatistics) (drifts : List Drift) :
    passDifferences discovery final (drifts.map (Drift.rename ρ)) =
      (passDifferences discovery final drifts).map (PassDifference.rename ρ) := by
  unfold passDifferences
  simp only [List.map_append, List.map_map]
  -- only the last of the four parts has names in it
  congr 1
  congr 1
  · congr 1
    · split <;> rfl
    · split <;> rfl
  · split <;> rfl

end Checks

-- ── Tables ──────────────────────────────────────────────────────────────────

namespace Table

variable {κ κ' ν : Type} [DecidableEq κ] [DecidableEq κ'] {f : κ → κ'} {N : Set κ}

/-- A key is found under its new name, if no other key of the table has got it. -/
theorem find?_mapKeys (hf : Set.InjOn f N) {t : Table κ ν} (ht : ∀ key ∈ t.keys, key ∈ N) {k : κ}
    (hk : k ∈ N) : (t.mapKeys f).find? (f k) = t.find? k := by
  obtain ⟨entries⟩ := t
  show findIn (f k) (entries.map _) = findIn k entries
  induction entries with
  | nil => rfl
  | cons entry rest ih =>
      obtain ⟨hkey, hrest⟩ := List.forall_mem_cons.mp ht
      rw [List.map_cons, findIn, findIn, ih hrest]
      simp only [hf.eq_iff hkey hk]

/-- A renamed table grows as the table does. -/
theorem mapKeys_insert (hf : Set.InjOn f N) {t : Table κ ν} (ht : ∀ key ∈ t.keys, key ∈ N) {k : κ}
    (hk : k ∈ N) (v : ν) : (t.insert k v).mapKeys f = (t.mapKeys f).insert (f k) v := by
  obtain ⟨entries⟩ := t
  refine congrArg Table.mk ?_
  show (insertIn k v entries).map _ = insertIn (f k) v (entries.map _)
  induction entries with
  | nil => rfl
  | cons entry rest ih =>
      obtain ⟨hkey, hrest⟩ := List.forall_mem_cons.mp ht
      rw [List.map_cons, insertIn, insertIn]
      simp only [hf.eq_iff hkey hk]
      split
      · rfl
      · rw [List.map_cons, ih hrest]

theorem mem_keys_insert {t : Table κ ν} {k : κ} {v : ν} {key : κ} (h : key ∈ (t.insert k v).keys) :
    key ∈ t.keys ∨ key = k := by
  rw [keys_insert] at h
  split at h
  · exact Or.inl h
  · rcases List.mem_append.mp h with hold | hnew
    · exact Or.inl hold
    · exact Or.inr (List.mem_singleton.mp hnew)

end Table

-- ── Symbols ─────────────────────────────────────────────────────────────────

namespace Symbols

/-- The second table is the first one renamed, and the names of the first one lie in `N`. -/
structure Renamed (ρ : String → String) (N : Set String) (s t : Symbols) : Prop where
  eq : t = s.rename ρ
  labels : ∀ n ∈ s.labels.keys, n ∈ N
  references : ∀ r ∈ s.references, r.name ∈ N

namespace Renamed

variable {ρ : String → String} {N : Set String} {s t : Symbols} {n : String}

theorem find? (h : Renamed ρ N s t) (hρ : Set.InjOn ρ N) (hn : n ∈ N) :
    t.labels.find? (ρ n) = s.labels.find? n := by
  rw [h.eq]
  exact Table.find?_mapKeys hρ h.labels hn

theorem lookup (h : Renamed ρ N s t) (hρ : Set.InjOn ρ N) (hn : n ∈ N) (pass : Pass) :
    t.lookup pass (ρ n) = (s.lookup pass n).mapError (Fault.rename ρ) := by
  have hplaceholder : t.placeholder = s.placeholder := by rw [h.eq]; rfl
  unfold Symbols.lookup
  rw [h.find? hρ hn, hplaceholder]
  cases s.labels.find? n with
  | some a => rfl
  | none => cases pass <;> rfl

/-- A reference is noted in both tables, or known in both. -/
theorem note (h : Renamed ρ N s t) (hρ : Set.InjOn ρ N) (hn : n ∈ N) (cursor : Number) :
    Renamed ρ N (s.note n cursor) (t.note (ρ n) cursor) := by
  have hknown : t.references.any (fun r => r.name == ρ n && r.address.equals cursor) =
      s.references.any (fun r => r.name == n && r.address.equals cursor) := by
    rw [h.eq, Symbols.rename, List.any_map, Bool.eq_iff_iff, List.any_eq_true, List.any_eq_true]
    refine exists_congr (fun r => and_congr_right (fun hr => ?_))
    -- a note for another name must not pass for one of this name: here the names have to be kept apart
    show (ρ r.name == ρ n && r.address.equals cursor) = true ↔ _
    rw [Bool.and_eq_true, Bool.and_eq_true, beq_iff_eq, beq_iff_eq, hρ.eq_iff (h.references r hr) hn]
  unfold Symbols.note
  rw [hknown]
  split
  · exact h
  · refine ⟨?_, h.labels, ?_⟩
    · rw [h.eq]
      simp only [Symbols.rename, List.map_append]
      rfl
    · intro r hr
      rcases List.mem_append.mp hr with hold | hnew
      · exact h.references r hold
      · rw [List.mem_singleton.mp hnew]
        exact hn

theorem use (h : Renamed ρ N s t) (hρ : Set.InjOn ρ N) (hn : n ∈ N) (pass : Pass) (cursor : Number) :
    Renamed ρ N (s.use pass cursor n) (t.use pass cursor (ρ n)) := by
  unfold Symbols.use
  rw [h.find? hρ hn]
  cases s.labels.find? n with
  | some a => exact h
  | none =>
      cases pass with
      | final => exact h
      | discovery => exact h.note hρ hn cursor

theorem uses (h : Renamed ρ N s t) (hρ : Set.InjOn ρ N) (pass : Pass) (cursor : Number) {names : List String}
    (hnames : ∀ n ∈ names, n ∈ N) :
    Renamed ρ N (names.foldl (Symbols.use pass cursor) s)
      ((names.map ρ).foldl (Symbols.use pass cursor) t) := by
  induction names generalizing s t with
  | nil => exact h
  | cons n rest ih =>
      obtain ⟨hn, hrest⟩ := List.forall_mem_cons.mp hnames
      exact ih (h.use hρ hn pass cursor) hrest

theorem pin (h : Renamed ρ N s t) (cursor : Number) (mode : Mode) :
    Renamed ρ N (s.pin cursor mode) (t.pin cursor mode) := by
  refine ⟨?_, h.labels, ?_⟩
  · rw [h.eq]
    simp only [Symbols.pin, Symbols.rename, List.map_map]
    congr 1
    refine List.map_congr_left (fun r _ => ?_)
    show (if r.address.equals cursor then _ else _) = Reference.rename ρ (if _ then _ else _)
    split <;> rfl
  · intro r hr
    obtain ⟨r', hr', rfl⟩ := List.mem_map.mp hr
    have hname := h.references r' hr'
    split <;> exact hname

/-- A definition under the new name: the same answer, or the same fault. -/
theorem define (h : Renamed ρ N s t) (hρ : Set.InjOn ρ N) (hn : n ∈ N) (pass : Pass) (x : Number) :
    ((Symbols.define pass (ρ n) x).exec t).1 =
        ((Symbols.define pass n x).exec s).1.mapError (Fault.rename ρ) ∧
      Renamed ρ N ((Symbols.define pass n x).exec s).2 ((Symbols.define pass (ρ n) x).exec t).2 := by
  have hlabels : ∀ a, t.labels.insert (ρ n) a = (s.labels.insert n a).mapKeys ρ := by
    intro a
    rw [Table.mapKeys_insert hρ h.labels hn, h.eq]
    rfl
  have hkeys : ∀ a, ∀ key ∈ (s.labels.insert n a).keys, key ∈ N := by
    intro a key hkey
    rcases Table.mem_keys_insert hkey with hold | rfl
    · exact h.labels key hold
    · exact hn
  unfold Symbols.define checkAddress
  cases hx : x.toAddress? with
  | none => exact ⟨rfl, h⟩
  | some a =>
      cases hf : s.labels.find? n with
      | none =>
          have hf' := (h.find? hρ hn).trans hf
          simp only [Action.exec_bind, Action.exec_check, Action.exec_get, hf, hf', Action.exec_set,
            Action.exec_pure]
          refine ⟨rfl, ?_, hkeys a, h.references⟩
          rw [hlabels, h.eq]
          rfl
      | some existing =>
          have hf' := (h.find? hρ hn).trans hf
          cases pass with
          | discovery =>
              simp only [Action.exec_bind, Action.exec_check, Action.exec_get, hf, hf', Action.exec_throw]
              exact ⟨rfl, h⟩
          | final =>
              simp only [Action.exec_bind, Action.exec_check, Action.exec_get, hf, hf', Action.exec_set,
                Action.exec_pure]
              refine ⟨rfl, ?_, hkeys a, h.references⟩
              rw [hlabels, h.eq]
              simp only [Symbols.rename]
              congr 1
              split
              · rfl
              · rw [List.map_append]
                rfl

end Renamed

end Symbols

-- ── Sessions ────────────────────────────────────────────────────────────────

/-- An operand under new names has the value it had, if its names do. -/
theorem Operand.valueIn_rename {ρ : String → String} {read read' : String → Except Fault Value}
    {cursor : Number} {o : Operand}
    (h : ∀ n ∈ o.names, read' (ρ n) = (read n).mapError (Fault.rename ρ)) :
    (o.rename ρ).valueIn read' cursor = (o.valueIn read cursor).mapError (Fault.rename ρ) := by
  induction o with
  | number v => rfl
  | name n => exact h n (List.mem_singleton.mpr rfl)
  | label n => exact h n (List.mem_singleton.mpr rfl)
  | here => rfl
  | add l r ihl ihr | sub l r ihl ihr =>
      have hl := ihl (fun n hn => h n (List.mem_append_left _ hn))
      have hr := ihr (fun n hn => h n (List.mem_append_right _ hn))
      rw [rename, valueIn, valueIn, hl, hr]
      cases l.valueIn read cursor with
      | error fault => rfl
      | ok a => cases r.valueIn read cursor <;> rfl
  | low o ih | high o ih =>
      rw [rename, valueIn, valueIn, ih h, Check.mapError_bind]
      refine congrArg _ (funext (fun v => ?_))
      rw [Check.mapError_bind, ((raises_word v).mono Fault.Unaimed.plain).mapError ρ]
      rfl

theorem Source.OperandSyntax.addressing_rename (ρ : String → String) (x : OperandSyntax) (m : Mnemonic)
    (v : Value) : (x.rename ρ).addressing m v = x.addressing m v := by
  cases x <;> rfl

namespace Session

/-- The second session is the first one with its symbols renamed. -/
def Renamed (ρ : String → String) (N : Set String) (s t : Session) : Prop :=
  ∃ symbols, s.symbols.Renamed ρ N symbols ∧ t = { s with symbols }

namespace Renamed

variable {ρ : String → String} {N : Set String} {s t : Session} {o : Operand} {m : Mnemonic}

theorem value (h : Renamed ρ N s t) (hρ : Set.InjOn ρ N) (ho : ∀ n ∈ o.names, n ∈ N) :
    t.value (o.rename ρ) = (s.value o).mapError (Fault.rename ρ) := by
  obtain ⟨symbols, hs, rfl⟩ := h
  exact Operand.valueIn_rename (fun n hn => hs.lookup hρ (ho n hn) s.pass)

theorem used (h : Renamed ρ N s t) (hρ : Set.InjOn ρ N) (ho : ∀ n ∈ o.names, n ∈ N) :
    Renamed ρ N (s.used o) (t.used (o.rename ρ)) := by
  obtain ⟨symbols, hs, rfl⟩ := h
  refine ⟨_, hs.uses hρ s.pass s.cursor.position ho, ?_⟩
  unfold Session.used
  rw [o.names_rename]

theorem pinned (h : Renamed ρ N s t) (hρ : Set.InjOn ρ N) (ho : ∀ n ∈ o.names, n ∈ N) (e : Encoded) :
    Renamed ρ N (s.pinned m o e) (t.pinned m (o.rename ρ) e) := by
  unfold Session.pinned
  rw [h.value hρ ho]
  cases s.value o with
  | error fault => exact h
  | ok v =>
      show Renamed ρ N (if _ then _ else _) (if _ then _ else _)
      split
      · obtain ⟨symbols, hs, rfl⟩ := h
        exact ⟨_, hs.pin s.cursor.position e.descriptor.mode, rfl⟩
      · exact h

theorem encodeOperand (h : Renamed ρ N s t) (m : Mnemonic) (o : Operand) (v : Value)
    (addressing : Option Index × Flags) :
    t.encodeOperand m (o.rename ρ) v addressing =
      (s.encodeOperand m o v addressing).mapError (Fault.rename ρ) := by
  obtain ⟨symbols, hs, rfl⟩ := h
  rw [(s.raises_encodeOperand m o v addressing).mapError ρ]
  have hpins : symbols.pinFor s.pass s.cursor.position = s.symbols.pinFor s.pass s.cursor.position := by
    rw [hs.eq]
    rfl
  show encodeWith s.pass s.cursor.position (symbols.pinFor s.pass s.cursor.position) m _ v _ _ = _
  rw [hpins]
  unfold Session.encodeOperand encodeWith chooseMode selectable
  rw [o.isBytePart_rename]

theorem encode (h : Renamed ρ N s t) (hρ : Set.InjOn ρ N) (m : Mnemonic)
    {operand : Option Source.OperandSyntax} (hnames : ∀ x, operand = some x → ∀ n ∈ x.names, n ∈ N) :
    t.encode m (operand.map (Source.OperandSyntax.rename ρ)) =
      (s.encode m operand).mapError (Fault.rename ρ) := by
  have hbare := ((raises_encodeIn m .implied ⟨0, false⟩).mono Fault.Unaimed.plain).mapError ρ
  have hcarried : ∀ (x : Source.OperandSyntax) (o : Operand), (∀ n ∈ o.names, n ∈ N) →
      (do
        Source.takesOperand m
        let v ← t.value (o.rename ρ)
        t.encodeOperand m (o.rename ρ) v ((x.rename ρ).addressing m v)) =
      (do
        Source.takesOperand m
        let v ← s.value o
        s.encodeOperand m o v (x.addressing m v)).mapError (Fault.rename ρ) := by
    intro x o ho
    rw [Check.mapError_bind, ((raises_takesOperand m).mono Fault.Unaimed.plain).mapError ρ]
    refine congrArg _ (funext (fun _ => ?_))
    rw [Check.mapError_bind, h.value hρ ho]
    refine congrArg _ (funext (fun v => ?_))
    rw [h.encodeOperand, x.addressing_rename]
  rcases operand with _ | (_ | o | ⟨o, index⟩ | o | o | o)
  case none => exact hbare.symm
  case some.accumulator => exact hbare.symm
  case some.direct =>
    have ho := hnames _ rfl
    show (t.value (o.rename ρ) >>= _) = (s.value o >>= _).mapError _
    rw [Check.mapError_bind]
    exact congrArg₂ (· >>= ·) (h.value hρ ho) (funext (fun _ => hcarried (.direct o index) o ho))
  case some.immediate => exact hcarried (.immediate o) (.low o) (hnames _ rfl)
  case some.indirect => exact hcarried (.indirect o) o (hnames _ rfl)
  case some.indexedIndirect => exact hcarried (.indexedIndirect o) o (hnames _ rfl)
  case some.indirectIndexed => exact hcarried (.indirectIndexed o) o (hnames _ rfl)

theorem encoded (h : Renamed ρ N s t) (hρ : Set.InjOn ρ N) (e : Encoded)
    {operand : Option Source.OperandSyntax} (hnames : ∀ x, operand = some x → ∀ n ∈ x.names, n ∈ N) :
    Renamed ρ N (s.encoded m e operand) (t.encoded m e (operand.map (Source.OperandSyntax.rename ρ))) := by
  have hcarried : ∀ o : Operand, (∀ n ∈ o.names, n ∈ N) →
      Renamed ρ N ((s.used o).pinned m o e) ((t.used (o.rename ρ)).pinned m (o.rename ρ) e) :=
    fun o ho => (h.used hρ ho).pinned hρ ho e
  rcases operand with _ | (_ | o | ⟨o, index⟩ | o | o | o)
  case none => exact h
  case some.accumulator => exact h
  case some.direct =>
    have ho := hnames _ rfl
    exact ((h.used hρ ho).used hρ ho).pinned hρ ho e
  case some.immediate => exact hcarried (.low o) (hnames _ rfl)
  case some.indirect => exact hcarried o (hnames _ rfl)
  case some.indexedIndirect => exact hcarried o (hnames _ rfl)
  case some.indirectIndexed => exact hcarried o (hnames _ rfl)

end Renamed

end Session

-- ── Statements ──────────────────────────────────────────────────────────────

/-- Both runs stop with the same fault, up to names. -/
abbrev upToNames (ρ : String → String) : Parting := .mapped (Fault.rename ρ)

theorem upToNames_plain {α β : Type} {ρ : String → String} {fault : Fault} (h : fault.Plain) :
    (upToNames ρ).Allows (.error fault : Except Fault α) (.error fault : Except Fault β) :=
  Or.inr (Or.inr ⟨fault, fault, rfl, rfl, h.rename ρ⟩)

namespace Source

/-- A program and the program renamed, where it only has names in `N`. -/
def Correspondence.renaming (ρ : String → String) (N : Set String) : Correspondence where
  operand o o' := o' = o.rename ρ ∧ ∀ n ∈ o.names, n ∈ N
  name n n' := n' = ρ n ∧ n ∈ N

section Steps

variable {ρ : String → String} {N : Set String}

/-- Two runs that are compared from sessions that differ by a renaming. -/
abbrev RenamedCoupled (ρ : String → String) (N : Set String) {α β : Type} (first : Assembly α)
    (second : Assembly β) (Post : α → β → Session → Session → Prop) : Prop :=
  Coupled (fun _ => True) (upToNames ρ) (Session.Renamed ρ N) first second Post

/-- Where the first run succeeds, so does the second. -/
theorem RenamedCoupled.of_ok {α β : Type} {first : Assembly α} {second : Assembly β}
    {Post : α → β → Session → Session → Prop} (h : RenamedCoupled ρ N first second Post) {s s' t : Session}
    {a : α} (hst : s.Renamed ρ N t) (hfirst : first.exec s = (.ok a, s')) :
    ∃ b t', second.exec t = (.ok b, t') ∧ Post a b s' t' := by
  rcases Coupled.of_ok h hst hfirst trivial with hok | ⟨_, _, -, hno⟩
  · exact hok
  · exact hno.elim

theorem renamed_evaluate (hρ : Set.InjOn ρ N) {o : Operand} (ho : ∀ n ∈ o.names, n ∈ N) :
    RenamedCoupled ρ N (Assembly.evaluate o) (Assembly.evaluate (o.rename ρ))
      (fun v w s t => w = v ∧ s.Renamed ρ N t) := by
  intro s t h _
  have hvalue := h.value hρ ho
  cases hv : s.value o with
  | ok v =>
      rw [hv] at hvalue
      exact Or.inl ⟨v, v, _, _, Assembly.exec_evaluate_of_ok hv, Assembly.exec_evaluate_of_ok hvalue, rfl,
        h.used hρ ho⟩
  | error fault =>
      rw [hv] at hvalue
      obtain ⟨references, hs⟩ := Assembly.exec_evaluate_of_error hv
      obtain ⟨references', ht⟩ := Assembly.exec_evaluate_of_error hvalue
      rw [hs, ht]
      exact Or.inr (Parting.mapped_allows _ fault)

/-- Cells have nothing to do with names of labels. -/
theorem renamed_emitByte (v : Number) :
    RenamedCoupled ρ N (Assembly.emitByte v) (Assembly.emitByte v) (fun _ _ => Session.Renamed ρ N) := by
  rintro s _ ⟨symbols, hs, rfl⟩ -
  have howner : ({ s with symbols } : Session).owner = s.owner := rfl
  cases hw : Image.checkWrite s.cursor.position v s.owner with
  | error fault =>
      simp only [Assembly.exec_emitByte, howner, hw]
      exact Or.inr (upToNames_plain (Fault.Unaimed.plain fault (raises_checkWrite _ v s.owner fault hw)))
  | ok w =>
      cases hm : s.memory.store w with
      | error fault =>
          simp only [Assembly.exec_emitByte, howner, hw, hm]
          exact Or.inr (upToNames_plain (Fault.Unaimed.plain fault (raises_store s.memory w fault hm)))
      | ok memory =>
          simp only [Assembly.exec_emitByte, howner, hw, hm]
          exact Or.inl ⟨(), (), _, _, rfl, rfl, symbols, hs, rfl⟩

theorem renamed_byteOf (hρ : Set.InjOn ρ N) {o : Operand} (ho : ∀ n ∈ o.names, n ∈ N) :
    RenamedCoupled ρ N (Assembly.byteOf o) (Assembly.byteOf (o.rename ρ))
      (fun _ _ => Session.Renamed ρ N) := by
  refine Coupled.bind (renamed_evaluate hρ ho) (fun _ _ _ => trivial) (fun v w => ?_)
  rintro s t ⟨rfl, h⟩
  exact renamed_emitByte _ s t h

theorem renamed_known (hρ : Set.InjOn ρ N) {o : Operand} (ho : ∀ n ∈ o.names, n ∈ N) (subject : Subject) :
    RenamedCoupled ρ N (known o subject) (known (o.rename ρ) (subject.rename ρ))
      (fun a b s t => a = b ∧ s.Renamed ρ N t) := by
  refine Coupled.bind (renamed_evaluate hρ ho) (fun _ _ _ => trivial) (fun v w => ?_)
  rintro s t ⟨rfl, h⟩ -
  cases w.pending with
  | true => exact Or.inr (Parting.mapped_allows _ (.notYetDefined subject))
  | false => exact Or.inl ⟨_, _, s, t, rfl, rfl, rfl, h⟩

theorem renamed_label (hρ : Set.InjOn ρ N) {n : String} (hn : n ∈ N) (address : Option Number) :
    RenamedCoupled ρ N (Assembly.label n address) (Assembly.label (ρ n) address)
      (fun _ _ => Session.Renamed ρ N) := by
  rintro s _ ⟨symbols, hs, rfl⟩ -
  obtain ⟨houtcome, hleft⟩ := hs.define hρ hn s.pass (address.getD s.cursor.position)
  rw [Assembly.exec_label, Assembly.exec_label]
  cases hrun : ((Symbols.define s.pass n (address.getD s.cursor.position)).exec s.symbols).1 with
  | ok a =>
      rw [hrun] at houtcome
      exact Or.inl ⟨a, a, _, _, rfl, Prod.ext houtcome rfl, _, hleft, rfl⟩
  | error fault =>
      rw [hrun] at houtcome
      refine Or.inr ?_
      show (upToNames ρ).Allows _ ((Symbols.define s.pass (ρ n) _).exec symbols).1
      rw [houtcome]
      exact Parting.mapped_allows _ fault

theorem renamed_paired (hρ : Set.InjOn ρ N) :
    Paired (.renaming ρ N) (fun _ => True) (upToNames ρ) (Session.Renamed ρ N) where
  back _ _ _ _ := trivial
  misfit := by
    rintro fault (⟨d, rfl⟩ | rfl | rfl) <;> exact Or.inr rfl
  number _ := ⟨rfl, List.forall_mem_nil _⟩
  low := by
    rintro o _ ⟨rfl, ho⟩
    exact ⟨rfl, ho⟩
  high := by
    rintro o _ ⟨rfl, ho⟩
    exact ⟨rfl, ho⟩
  byteOf := by
    rintro o _ ⟨rfl, ho⟩
    exact renamed_byteOf hρ ho
  known := by
    rintro o _ subject subject' ⟨rfl, ho⟩ hsubject
    have hrenamed : subject' = subject.rename ρ := by
      cases hsubject with
      | origin => rfl
      | fillCount => rfl
      | valueOf hn => exact congrArg Subject.valueOf hn.1
    rw [hrenamed]
    exact renamed_known hρ ho subject
  label := by
    rintro n _ address ⟨rfl, hn⟩
    exact renamed_label hρ hn address
  org place := by
    rintro s _ ⟨symbols, hs, rfl⟩ -
    exact Or.inl ⟨(), (), _, _, rfl, rfl, symbols, hs, rfl⟩

theorem renamed_encoding (hρ : Set.InjOn ρ N) (m : Mnemonic) {operand : Option OperandSyntax}
    (hnames : ∀ x, operand = some x → ∀ n ∈ x.names, n ∈ N) :
    RenamedCoupled ρ N (encoding m operand) (encoding m (operand.map (OperandSyntax.rename ρ)))
      (fun e e' s t => e' = e ∧ s.Renamed ρ N t) := by
  intro s t h _
  have hencode := h.encode hρ m hnames
  cases he : s.encode m operand with
  | ok e =>
      rw [he] at hencode
      exact Or.inl ⟨e, e, _, _, exec_encoding_of_ok he, exec_encoding_of_ok hencode, rfl,
        h.encoded hρ e hnames⟩
  | error fault =>
      rw [he] at hencode
      obtain ⟨s', hs⟩ := exec_encoding_of_error he
      obtain ⟨t', ht⟩ := exec_encoding_of_error hencode
      rw [hs, ht]
      exact Or.inr (Parting.mapped_allows _ fault)

theorem renamed_instruction (hρ : Set.InjOn ρ N) (m : Mnemonic) {operand : Option OperandSyntax}
    (hnames : ∀ x, operand = some x → ∀ n ∈ x.names, n ∈ N) :
    RenamedCoupled ρ N (Statement.Body.run (.instruction m operand))
      (Statement.Body.run (.instruction m (operand.map (OperandSyntax.rename ρ))))
      (fun _ _ => Session.Renamed ρ N) := by
  rw [run_instruction, run_instruction]
  refine Coupled.bind (renamed_encoding hρ m hnames) (fun _ _ _ => trivial) (fun e e' => ?_)
  rintro s t ⟨rfl, h⟩
  refine Coupled.bind (Coupled.each (Q := Eq) (fun _ _ _ => trivial) ?_
    (List.forall₂_same.mpr (fun _ _ => rfl))) (fun _ _ _ => trivial) (fun _ _ => ?_) s t h
  · rintro v _ rfl
    exact renamed_emitByte v
  · rintro s _ ⟨symbols, hs, rfl⟩ -
    exact Or.inl ⟨(), (), _, _, rfl, rfl, symbols, hs, rfl⟩

theorem renamed_body (hρ : Set.InjOn ρ N) {b : Statement.Body} (hb : ∀ n ∈ b.names, n ∈ N) :
    RenamedCoupled ρ N b.run (b.rename ρ).run (fun _ _ => Session.Renamed ρ N) := by
  cases b with
  | label n => exact (renamed_paired hρ).body (.label ⟨rfl, hb n (List.mem_singleton.mpr rfl)⟩)
  | assignment n o =>
      obtain ⟨hn, ho⟩ := List.forall_mem_cons.mp hb
      exact (renamed_paired hρ).body (.assignment ⟨rfl, hn⟩ ⟨rfl, ho⟩)
  | instruction m operand =>
      refine renamed_instruction hρ m (fun x hx n hn => hb n ?_)
      rw [hx]
      exact hn
  | directive d args =>
      refine (renamed_paired hρ).body (.directive d ?_)
      rw [List.forall₂_map_right_iff]
      refine List.forall₂_same.mpr (fun arg harg => ?_)
      have hnames : ∀ n ∈ arg.names, n ∈ N := fun n hn => hb n (List.mem_flatMap.mpr ⟨arg, harg, hn⟩)
      cases arg with
      | text content => exact .text content
      | value o => exact .value ⟨rfl, hnames⟩

/-- A statement and the statement renamed, from sessions that differ by the renaming: both complete, or both
    fail at its position. -/
theorem renamed_run (hρ : Set.InjOn ρ N) {st : Statement} (hst : ∀ n ∈ st.body.names, n ∈ N) :
    RenamedCoupled ρ N st.run (st.rename ρ).run (fun _ _ => Session.Renamed ρ N) := by
  intro s t h _
  have hsecond : (st.rename ρ).run.exec t =
      (((st.body.rename ρ).run.exec t).1.mapError (atStatement st.position),
        ((st.body.rename ρ).run.exec t).2) := exec_run (st.rename ρ) t
  rw [exec_run, hsecond]
  rcases renamed_body hρ hst s t h trivial with ⟨a, b, s', t', hs, ht, h'⟩ | hpart
  · rw [hs, ht]
    exact Or.inl ⟨a, b, s', t', rfl, rfl, h'⟩
  · obtain ⟨fault, hs, ht⟩ := Parting.exists_of_mapped_allows hpart
    rw [hs, ht]
    refine Or.inr ?_
    show (upToNames ρ).Allows (.error (atStatement st.position fault))
      (.error (atStatement st.position (fault.rename ρ)))
    rw [atStatement_rename]
    exact Parting.mapped_allows _ _

theorem renamed_runAll (hρ : Set.InjOn ρ N) {statements : List Statement}
    (hnames : ∀ n ∈ namesOf statements, n ∈ N) :
    RenamedCoupled ρ N (runAll statements) (runAll (statements.map (Statement.rename ρ)))
      (fun _ _ => Session.Renamed ρ N) := by
  refine Coupled.each (Q := fun st st' => st' = st.rename ρ ∧ ∀ n ∈ st.body.names, n ∈ N)
    (fun _ _ _ => trivial) ?_ ?_
  · rintro st _ ⟨rfl, hst⟩
    exact renamed_run hρ hst
  · rw [List.forall₂_map_right_iff]
    exact List.forall₂_same.mpr
      (fun st hst => ⟨rfl, fun n hn => hnames n (List.mem_flatMap.mpr ⟨st, hst, hn⟩)⟩)

/-- Both runs complete the same statements. -/
theorem completed_rename (hρ : Set.InjOn ρ N) {statements : List Statement}
    (hnames : ∀ n ∈ namesOf statements, n ∈ N) {s t : Session} (h : s.Renamed ρ N t) :
    (completed (statements.map (Statement.rename ρ)) t).map (·.statement) =
      (completed statements s).map (·.statement.rename ρ) := by
  induction statements generalizing s t with
  | nil => rfl
  | cons st rest ih =>
      have hst : ∀ n ∈ st.body.names, n ∈ N := fun n hn => hnames n (List.mem_append_left _ hn)
      have hrest : ∀ n ∈ namesOf rest, n ∈ N := fun n hn => hnames n (List.mem_append_right _ hn)
      rcases renamed_run hρ hst s t h trivial with ⟨_, _, s', t', hs, ht, h'⟩ | hpart
      · rw [List.map_cons, completed_cons_ok hs, completed_cons_ok ht, List.map_cons, List.map_cons,
          ih hrest h']
      · obtain ⟨fault, hs, ht⟩ := Parting.exists_of_mapped_allows hpart
        rw [List.map_cons, completed_cons_error (Prod.ext hs rfl), completed_cons_error (Prod.ext ht rfl)]
        rfl

-- ── Both passes ─────────────────────────────────────────────────────────────

theorem renamed_reportIfVerbose {line : Session → String}
    (hline : ∀ s t, s.Renamed ρ N t → line t = line s) :
    RenamedCoupled ρ N (Assembly.reportIfVerbose line) (Assembly.reportIfVerbose line)
      (fun _ _ => Session.Renamed ρ N) := by
  intro s t h _
  have hsame := hline s t h
  obtain ⟨symbols, hs, rfl⟩ := h
  unfold Assembly.reportIfVerbose
  rw [Action.exec_bind_of_ok (Action.exec_get s), Action.exec_bind_of_ok (Action.exec_get _), hsame]
  have hverbose : ({ s with symbols } : Session).verbose = s.verbose := rfl
  rw [hverbose]
  split <;> exact Or.inl ⟨(), (), _, _, rfl, rfl, symbols, hs, rfl⟩

/-- What is reported counts references, and does not name them. -/
theorem renamed_turnOver :
    RenamedCoupled ρ N Assembly.turnOver Assembly.turnOver (fun a b s t => b = a ∧ s.Renamed ρ N t) := by
  have hend : RenamedCoupled ρ N Assembly.endPass Assembly.endPass
      (fun a b s t => b = a ∧ s.Renamed ρ N t) := by
    rintro s _ ⟨symbols, hs, rfl⟩ -
    exact Or.inl ⟨s.statistics, s.statistics, _, _, rfl, rfl, rfl, symbols, hs, rfl⟩
  have hbegin : RenamedCoupled ρ N Assembly.beginFinal Assembly.beginFinal
      (fun _ _ => Session.Renamed ρ N) := by
    rintro s _ ⟨symbols, hs, rfl⟩ -
    unfold Assembly.beginFinal
    rw [Action.exec_bind_of_ok (Action.exec_get s), Action.exec_bind_of_ok (Action.exec_get _)]
    cases s.pass with
    | final => exact Or.inr (Parting.mapped_allows _ .alreadyFinal)
    | discovery => exact Or.inl ⟨(), (), _, _, rfl, rfl, symbols, hs, rfl⟩
  refine Coupled.bind hend (fun _ _ _ => trivial) (fun discovery discovery' => ?_)
  rintro s t ⟨rfl, h⟩
  refine Coupled.bind (renamed_reportIfVerbose ?_) (fun _ _ _ => trivial) (fun _ _ =>
    Coupled.bind hbegin (fun _ _ _ => trivial) (fun _ _ => Coupled.pure (fun _ _ h => ⟨rfl, h⟩))) s t h
  rintro s _ ⟨symbols, hs, rfl⟩
  refine congrArg (Assembly.discoveryReport discovery') ?_
  rw [hs.eq]
  exact List.length_map ..

theorem renamed_turned {s t : Session} (h : s.Renamed ρ N t) (hpass : s.pass = .discovery) :
    s.turned.Renamed ρ N t.turned := by
  obtain ⟨journal, hturn⟩ := Session.exec_turnOver hpass
  obtain ⟨_, t', hturn', -, hleft⟩ := RenamedCoupled.of_ok renamed_turnOver h hturn
  unfold Session.turned
  rw [hturn, hturn']
  exact hleft

theorem renamed_conclude (discovery : PassStatistics) :
    RenamedCoupled ρ N (Assembly.conclude discovery) (Assembly.conclude discovery)
      (fun c c' _ _ => c' = c.rename ρ) := by
  rintro s _ ⟨symbols, hs, rfl⟩ -
  obtain ⟨s', hfirst⟩ := Session.exec_conclude s discovery
  obtain ⟨t', hsecond⟩ := Session.exec_conclude { s with symbols } discovery
  have hdifferences : passDifferences discovery s.statistics symbols.drifts =
      (passDifferences discovery s.statistics s.symbols.drifts).map (PassDifference.rename ρ) := by
    rw [hs.eq]
    exact passDifferences_rename ρ discovery s.statistics s.symbols.drifts
  have hstatistics : ({ s with symbols } : Session).statistics = s.statistics := rfl
  rw [hstatistics, hdifferences] at hsecond
  rw [hfirst, hsecond]
  cases passDifferences discovery s.statistics s.symbols.drifts with
  | nil =>
      refine Or.inl ⟨_, _, _, _, rfl, rfl, ?_⟩
      rw [hs.eq]
      rfl
  | cons difference rest => exact Or.inr (Parting.mapped_allows _ (.passMismatch (difference :: rest)))

theorem renamed_bothPasses (hρ : Set.InjOn ρ N) {statements : List Statement}
    (hnames : ∀ n ∈ namesOf statements, n ∈ N) :
    RenamedCoupled ρ N (Assembly.bothPasses (runAll statements))
      (Assembly.bothPasses (runAll (statements.map (Statement.rename ρ))))
      (fun c c' _ _ => c' = c.rename ρ) := by
  have hprogram := renamed_runAll hρ hnames
  refine Coupled.bind hprogram (fun _ _ _ => trivial) (fun _ _ => ?_)
  refine Coupled.bind renamed_turnOver (fun _ _ _ => trivial) (fun discovery discovery' => ?_)
  rintro s t ⟨rfl, h⟩
  exact Coupled.bind hprogram (fun _ _ _ => trivial) (fun _ _ => renamed_conclude discovery') s t h

end Steps

/-- Before its first statement a program has no names to be renamed. -/
theorem renamed_create {options : Options} {s : Session} (h : Session.create options = .ok s)
    (ρ : String → String) (N : Set String) : s.Renamed ρ N s := by
  have hnew := Session.isNew_of_create h
  have hnameless : ∀ symbols : Symbols, symbols.labels = .empty → symbols.references = [] →
      symbols.drifts = [] → symbols = symbols.rename ρ := by
    rintro ⟨labels, references, pins, drifts, placeholder⟩ rfl rfl rfl
    rfl
  refine ⟨s.symbols, ⟨hnameless s.symbols hnew.labels hnew.references hnew.drifts, ?_, ?_⟩, rfl⟩
  · rw [hnew.labels]
    exact List.forall_mem_nil _
  · rw [hnew.references]
    exact List.forall_mem_nil _

/-- A run that completes every statement succeeds. -/
theorem exists_of_completed {statements : List Statement} {s : Session}
    (h : (completed statements s).map (·.statement) = statements) :
    ∃ t, (runAll statements).exec s = (.ok (), t) := by
  induction statements generalizing s with
  | nil => exact ⟨s, rfl⟩
  | cons st rest ih =>
      cases hrun : st.run.exec s with
      | mk outcome s' =>
          cases outcome with
          | error fault =>
              rw [completed_cons_error hrun] at h
              cases h
          | ok _ =>
              rw [completed_cons_ok hrun] at h
              obtain ⟨t, ht⟩ := ih (List.cons.inj h).2
              exact ⟨t, (Action.exec_bind_of_ok hrun).trans ht⟩

/-- Names of labels do not matter. If a renaming keeps the names of a program apart, the program and the
    program renamed both compile or both fail. Where they compile, only the names in the labels and the
    references differ; where they fail, it is with the same fault, up to names, and after the same
    statements of the same pass. -/
theorem renaming_labels_renames_the_outcome (ρ : String → String) (options : Options)
    (statements : List Statement) (hρ : Set.InjOn ρ {n | n ∈ namesOf statements}) :
    ((∃ c, (compile (runAll statements) options).1 = .ok c ∧
        (compile (runAll (statements.map (Statement.rename ρ))) options).1 = .ok (c.rename ρ)) ∨
      ∃ fault, (compile (runAll statements) options).1 = .error fault ∧
        (compile (runAll (statements.map (Statement.rename ρ))) options).1 =
          .error (fault.rename ρ)) ∧
    (discoverySteps options (statements.map (Statement.rename ρ))).map (·.statement) =
      (discoverySteps options statements).map (·.statement.rename ρ) ∧
    ((discoverySteps options statements).map (·.statement) = statements →
      (finalSteps options (statements.map (Statement.rename ρ))).map (·.statement) =
        (finalSteps options statements).map (·.statement.rename ρ)) := by
  cases hcreate : Session.create options.withStart with
  | error fault =>
      have hplain : fault.rename ρ = fault := (raises_create options.withStart fault hcreate).rename ρ
      rw [compile_of_create_error hcreate, compile_of_create_error hcreate]
      simp only [discoverySteps, finalSteps, hcreate]
      exact ⟨Or.inr ⟨fault, rfl, congrArg Except.error hplain.symm⟩, rfl, fun _ => rfl⟩
  | ok s =>
      have hs := renamed_create hcreate ρ {n | n ∈ namesOf statements}
      have hnames : ∀ n ∈ namesOf statements, n ∈ {n | n ∈ namesOf statements} := fun _ hn => hn
      refine ⟨?_, ?_, ?_⟩
      · rw [fst_compile hcreate, fst_compile hcreate]
        rcases renamed_bothPasses hρ hnames s s hs trivial with ⟨c, _, s', t', hfirst, hsecond, rfl⟩ | hpart
        · exact Or.inl ⟨c, congrArg Prod.fst hfirst, congrArg Prod.fst hsecond⟩
        · exact Or.inr (Parting.exists_of_mapped_allows hpart)
      · simp only [discoverySteps, hcreate]
        exact completed_rename hρ hnames hs
      · simp only [discoverySteps, finalSteps, hcreate]
        intro hall
        -- what a failed discovery leaves is not compared, so the final pass is only after a whole one
        obtain ⟨last, hlast⟩ := exists_of_completed hall
        obtain ⟨_, last', hlast', hleft⟩ := RenamedCoupled.of_ok (renamed_runAll hρ hnames) hs hlast
        have hpass : last.pass = .discovery :=
          ((leads_runAll statements).of_exec hlast).pass.trans (Session.isNew_of_create hcreate).pass
        rw [hlast, hlast']
        exact completed_rename hρ hnames (renamed_turned hleft hpass)

/-- A loop over a table that follows it, and the length of the table. -/
def tableProgram : List Statement :=
  [⟨.label "loop", ⟨1, 1⟩⟩,
    ⟨.instruction .lda (some (.direct (.name "table") (some .x))), ⟨1, 7⟩⟩,
    ⟨.instruction .bne (some (.direct (.name "loop") none)), ⟨2, 7⟩⟩,
    ⟨.label "table", ⟨3, 1⟩⟩,
    ⟨.assignment "size" (.sub .here (.name "table")), ⟨4, 1⟩⟩,
    ⟨.directive .byte [.value (.name "size"), .value (.low (.label "table"))], ⟨5, 7⟩⟩]

/-- New names for the program: two of them were names of it before, and one is that of a register. -/
def shiftedNames (n : String) : String :=
  if n = "loop" then "table" else if n = "table" then "X" else if n = "size" then "loop" else n

theorem injOn_shiftedNames : Set.InjOn shiftedNames {n | n ∈ namesOf tableProgram} := by
  have hall : ∀ a ∈ namesOf tableProgram, ∀ b ∈ namesOf tableProgram,
      shiftedNames a = shiftedNames b → a = b := by decide +kernel
  intro a ha b hb
  exact hall a ha b hb

theorem shifted_names_are_shifted :
    Set.InjOn shiftedNames {n | n ∈ namesOf tableProgram} ∧
    ∃ c, (compile (runAll tableProgram) {}).1 = .ok c ∧
      (compile (runAll (tableProgram.map (Statement.rename shiftedNames))) {}).1 =
        .ok (c.rename shiftedNames) ∧
      c.labels.keys = ["loop", "table", "size"] ∧
      (c.rename shiftedNames).labels.keys = ["table", "X", "loop"] ∧
      (c.rename shiftedNames).references.map (·.name) = ["X"] ∧
      (finalSteps {} (tableProgram.map (Statement.rename shiftedNames))).map (·.statement) =
        (finalSteps {} tableProgram).map (·.statement.rename shiftedNames) := by
  refine ⟨injOn_shiftedNames, ?_⟩
  have hseen : (compile (runAll tableProgram) {}).1.map (fun c => (c.labels.keys,
      (c.rename shiftedNames).labels.keys, (c.rename shiftedNames).references.map (·.name))) =
      .ok (["loop", "table", "size"], ["table", "X", "loop"], ["X"]) := by decide +kernel
  have hall : (discoverySteps {} tableProgram).map (·.statement) = tableProgram := by decide +kernel
  obtain ⟨houtcome, -, hfinal⟩ :=
    renaming_labels_renames_the_outcome shiftedNames {} tableProgram injOn_shiftedNames
  rcases houtcome with ⟨c, hfirst, hsecond⟩ | ⟨fault, hno, -⟩
  · rw [hfirst] at hseen
    obtain ⟨hlabels, hrest⟩ := Prod.mk.inj (Except.ok.inj hseen)
    obtain ⟨hrenamed, hreferences⟩ := Prod.mk.inj hrest
    exact ⟨c, hfirst, hsecond, hlabels, hrenamed, hreferences, hfinal hall⟩
  · rw [hno] at hseen
    cases hseen

end Source

end Asm6502
