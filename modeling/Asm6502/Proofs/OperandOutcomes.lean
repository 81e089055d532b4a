import Asm6502.Addressing
import Asm6502.Proofs.Evaluation

/-!
# The outcome of an operand

An operand whose labels are all known amounts to a number, by arithmetic alone: `Operand.Amounts` says to
which. Evaluation has placeholders, notes and checks on the way, but its outcome is told by the amounts.
Discovery fails exactly where a byte is taken of something that amounts to a number other than a word; an
answer that is not pending is the amount; and the final pass answers with amounts only.

* `Operand.Amounts`: what an operand stands for under known labels.
* `Operand.halves`: the operands that a byte is taken of.
* `Symbols.Lacks`: an unknown name without a reference at a cursor.
* `operand_outcome`: what evaluation answers and what it leaves behind, in both passes.
-/

namespace Asm6502

-- ── Amounts ─────────────────────────────────────────────────────────────────

namespace Operand

/-- The arithmetic of operands: what an operand stands for under the given labels, at a cursor. A byte can be
    taken of a word only, and an operand with an unknown label stands for nothing. -/
inductive Amounts (labels : Table String UInt16) (cursor : Number) : Operand → Number → Prop where
  | number (x : Number) : Amounts labels cursor (.number x) x
  | name {n : String} {a : UInt16} (h : labels.find? n = some a) :
      Amounts labels cursor (.name n) (.ofAddress a)
  | label {n : String} {a : UInt16} (h : labels.find? n = some a) :
      Amounts labels cursor (.label n) (.ofAddress a)
  | here : Amounts labels cursor .here cursor
  | add {l r : Operand} {x y : Number} (hl : Amounts labels cursor l x) (hr : Amounts labels cursor r y) :
      Amounts labels cursor (.add l r) (x + y)
  | sub {l r : Operand} {x y : Number} (hl : Amounts labels cursor l x) (hr : Amounts labels cursor r y) :
      Amounts labels cursor (.sub l r) (x - y)
  | low {o : Operand} {n : Nat} (h : Amounts labels cursor o (.ofNat n)) (hn : n ≤ 65535) :
      Amounts labels cursor (.low o) (.ofNat (n % 256))
  | high {o : Operand} {n : Nat} (h : Amounts labels cursor o (.ofNat n)) (hn : n ≤ 65535) :
      Amounts labels cursor (.high o) (.ofNat (n / 256))

/-- The operands that a byte is taken of. -/
def halves : Operand → List Operand
  | .number _ => []
  | .name _ => []
  | .label _ => []
  | .here => []
  | .add l r => l.halves ++ r.halves
  | .sub l r => l.halves ++ r.halves
  | .low o => o.halves ++ [o]
  | .high o => o.halves ++ [o]

/-- An operand has no unknown label and amounts to something that is no word. -/
def Overflows (labels : Table String UInt16) (cursor : Number) (o : Operand) : Prop :=
  (∀ n ∈ o.names, labels.find? n ≠ none) ∧
    ∃ x, o.Amounts labels cursor x ∧ ∀ n ≤ 65535, x ≠ .ofNat n

end Operand

-- ── Words ───────────────────────────────────────────────────────────────────

theorem checkWord_eq_error_iff {x : Number} :
    (∃ fault, checkWord x = .error fault) ↔ ∀ n ≤ 65535, x ≠ .ofNat n := by
  constructor
  · rintro ⟨fault, hfault⟩ n hn rfl
    rw [checkWord_ofNat (by omega)] at hfault
    cases hfault
  · intro hno
    cases hword : checkWord x with
    | error fault => exact ⟨fault, rfl⟩
    | ok w =>
        have hw := w.toNat_lt
        exact absurd (checkWord_eq_ok_iff.mp hword) (hno w.toNat (by omega))

theorem ofByte_lowByte (w : UInt16) : Number.ofByte (lowByte w) = .ofNat (w.toNat % 256) := by
  exact ofByte_ofNat (Nat.mod_lt _ (by decide))

theorem ofByte_highByte (w : UInt16) : Number.ofByte (highByte w) = .ofNat (w.toNat / 256) := by
  exact ofByte_ofNat (Nat.div_lt_of_lt_mul w.toNat_lt)

-- ── Answers and amounts ─────────────────────────────────────────────────────

namespace Symbols

variable {s : Symbols} {n : String}

/-- Known labels are read alike in both passes. -/
theorem lookup_of_find? {a : UInt16} (h : s.labels.find? n = some a) (pass : Pass) :
    s.lookup pass n = .ok ⟨.ofAddress a, false⟩ := by
  unfold lookup
  rw [h]

theorem lookup_discovery_of_find? (h : s.labels.find? n = none) :
    s.lookup .discovery n = .ok ⟨.ofAddress s.placeholder, true⟩ := by
  unfold lookup
  rw [h]

/-- What is not pending is known. -/
theorem exists_of_lookup {pass : Pass} {v : Value} (h : s.lookup pass n = .ok v)
    (hknown : v.pending = false) : ∃ a, s.labels.find? n = some a ∧ v.amount = .ofAddress a := by
  cases hfind : s.labels.find? n with
  | some a =>
      rw [lookup_of_find? hfind] at h
      rw [← Except.ok.inj h]
      exact ⟨a, rfl, rfl⟩
  | none =>
      unfold lookup at h
      rw [hfind] at h
      cases pass with
      | final => cases h
      | discovery =>
          rw [← Except.ok.inj h] at hknown
          cases hknown

end Symbols

namespace Operand

variable {cursor : Number} {s : Symbols} {o : Operand}

/-- The value of an operand that amounts to something. -/
theorem Amounts.valueIn {x : Number} (h : o.Amounts s.labels cursor x) (pass : Pass) :
    o.valueIn (s.lookup pass) cursor = .ok ⟨x, false⟩ := by
  induction h with
  | number x => rfl
  | here => rfl
  | name h => exact Symbols.lookup_of_find? h pass
  | label h => exact Symbols.lookup_of_find? h pass
  | add _ _ ihl ihr | sub _ _ ihl ihr => rw [Operand.valueIn, ihl, ihr]; rfl
  | low _ hn ih =>
      have hlt := Nat.lt_succ_of_le hn
      rw [Operand.valueIn, ih, Check.ok_bind, Value.word, if_neg Bool.false_ne_true, checkWord_ofNat hlt,
        Check.ok_bind, ofByte_lowByte, UInt16.toNat_ofNat_of_lt' hlt]
      rfl
  | high _ hn ih =>
      have hlt := Nat.lt_succ_of_le hn
      rw [Operand.valueIn, ih, Check.ok_bind, Value.word, if_neg Bool.false_ne_true, checkWord_ofNat hlt,
        Check.ok_bind, ofByte_highByte, UInt16.toNat_ofNat_of_lt' hlt]
      rfl

/-- What a value that is not pending amounts to. -/
theorem amounts_of_valueIn {pass : Pass} {v : Value} (h : o.valueIn (s.lookup pass) cursor = .ok v)
    (hknown : v.pending = false) : o.Amounts s.labels cursor v.amount := by
  induction o generalizing v with
  | number x => rw [← Except.ok.inj h]; exact .number x
  | here => rw [← Except.ok.inj h]; exact .here
  | name n =>
      obtain ⟨a, ha, hamount⟩ := Symbols.exists_of_lookup h hknown
      rw [hamount]
      exact .name ha
  | label n =>
      obtain ⟨a, ha, hamount⟩ := Symbols.exists_of_lookup h hknown
      rw [hamount]
      exact .label ha
  | add l r ihl ihr =>
      obtain ⟨a, ha, h⟩ := Check.bind_eq_ok h
      obtain ⟨b, hb, h⟩ := Check.bind_eq_ok h
      rw [← Except.ok.inj h] at hknown ⊢
      obtain ⟨hl, hr⟩ := Bool.or_eq_false_iff.mp hknown
      exact .add (ihl ha hl) (ihr hb hr)
  | sub l r ihl ihr =>
      obtain ⟨a, ha, h⟩ := Check.bind_eq_ok h
      obtain ⟨b, hb, h⟩ := Check.bind_eq_ok h
      rw [← Except.ok.inj h] at hknown ⊢
      obtain ⟨hl, hr⟩ := Bool.or_eq_false_iff.mp hknown
      exact .sub (ihl ha hl) (ihr hb hr)
  | low o ih =>
      obtain ⟨x, pending⟩ := v
      obtain rfl : pending = false := hknown
      obtain ⟨w, hw, hx⟩ := value_of_part h
      rw [hx, ofByte_lowByte]
      exact .low (ih hw rfl) (Nat.le_of_lt_succ w.toNat_lt)
  | high o ih =>
      obtain ⟨x, pending⟩ := v
      obtain rfl : pending = false := hknown
      obtain ⟨w, hw, hx⟩ := value_of_part h
      rw [hx, ofByte_highByte]
      exact .high (ih hw rfl) (Nat.le_of_lt_succ w.toNat_lt)

/-- A known value is the only amount of its operand. -/
theorem amounts_iff {pass : Pass} {v : Value} (h : o.valueIn (s.lookup pass) cursor = .ok v)
    (hknown : v.pending = false) (x : Number) : o.Amounts s.labels cursor x ↔ x = v.amount := by
  constructor
  · intro hamounts
    have hvalue := hamounts.valueIn pass
    rw [h] at hvalue
    rw [Except.ok.inj hvalue]
  · rintro rfl
    exact amounts_of_valueIn h hknown

/-- The final pass answers with amounts only. -/
theorem valueIn_final_iff {v : Value} :
    o.valueIn (s.lookup .final) cursor = .ok v ↔ v.pending = false ∧ o.Amounts s.labels cursor v.amount := by
  constructor
  · intro h
    have hknown := pending_of_final h
    exact ⟨hknown, amounts_of_valueIn h hknown⟩
  · rintro ⟨hknown, hamounts⟩
    rw [hamounts.valueIn .final, ← hknown]

/-- In discovery a value is pending exactly if a name is unknown. -/
theorem pending_discovery_iff {v : Value} (h : o.valueIn (s.lookup .discovery) cursor = .ok v) :
    v.pending = true ↔ ∃ n ∈ o.names, s.labels.find? n = none := by
  have hname : ∀ n, (∃ u, s.lookup .discovery n = .ok u ∧ u.pending = false) ↔ ¬s.labels.find? n = none := by
    intro n
    constructor
    · rintro ⟨u, hu, hknown⟩ hnone
      obtain ⟨a, ha, -⟩ := Symbols.exists_of_lookup hu hknown
      rw [hnone] at ha
      cases ha
    · intro hsome
      obtain ⟨a, ha⟩ := Option.ne_none_iff_exists'.mp hsome
      exact ⟨_, Symbols.lookup_of_find? ha _, rfl⟩
  rw [← Bool.not_eq_false, pending_eq_false_iff h]
  simp only [hname, not_forall, Decidable.not_not, exists_prop]

-- ── Failures ────────────────────────────────────────────────────────────────

theorem fails_sum_iff {x y : Except Fault Value} (f : Value → Value → Value) :
    (∃ fault, (do let a ← x; let b ← y; return f a b : Except Fault Value) = .error fault) ↔
      (∃ fault, x = .error fault) ∨ ∃ fault, y = .error fault := by
  cases x <;> cases y <;> simp

theorem fails_half_iff {x : Except Fault Value} (f : Value → UInt16 → Value) :
    (∃ fault, (do let v ← x; let w ← v.word; return f v w : Except Fault Value) = .error fault) ↔
      (∃ fault, x = .error fault) ∨ ∃ v, x = .ok v ∧ ∃ fault, v.word = .error fault := by
  cases x with
  | error fault => simp
  | ok v => cases hw : v.word <;> simp [hw]

/-- In discovery a byte cannot be taken of an operand exactly if the operand overflows. -/
theorem overflows_iff :
    o.Overflows s.labels cursor ↔
      ∃ v, o.valueIn (s.lookup .discovery) cursor = .ok v ∧ ∃ fault, v.word = .error fault := by
  constructor
  · rintro ⟨-, x, hamounts, hno⟩
    exact ⟨_, hamounts.valueIn .discovery, checkWord_eq_error_iff.mpr hno⟩
  · rintro ⟨v, hv, fault, hfault⟩
    have hknown : v.pending = false := by
      cases hpending : v.pending with
      | false => rfl
      | true =>
          rw [Value.word, hpending, if_pos rfl] at hfault
          cases hfault
    rw [Value.word, hknown, if_neg Bool.false_ne_true] at hfault
    refine ⟨fun n hn hnone => ?_, v.amount, amounts_of_valueIn hv hknown,
      checkWord_eq_error_iff.mp ⟨fault, hfault⟩⟩
    have hpending := (pending_discovery_iff hv).mpr ⟨n, hn, hnone⟩
    rw [hknown] at hpending
    cases hpending

/-- Discovery fails exactly where a byte is taken of an operand that overflows. -/
theorem valueIn_discovery_fails_iff :
    (∃ fault, o.valueIn (s.lookup .discovery) cursor = .error fault) ↔
      ∃ part ∈ o.halves, part.Overflows s.labels cursor := by
  have hname : ∀ n, ¬∃ fault, s.lookup .discovery n = .error fault := by
    rintro n ⟨fault, hfault⟩
    cases hfind : s.labels.find? n with
    | some a => rw [Symbols.lookup_of_find? hfind] at hfault; cases hfault
    | none => rw [Symbols.lookup_discovery_of_find? hfind] at hfault; cases hfault
  have hnone : ¬∃ part ∈ ([] : List Operand), part.Overflows s.labels cursor := by
    rintro ⟨part, hmem, -⟩
    cases hmem
  induction o with
  | number x | here =>
      refine iff_of_false ?_ hnone
      rintro ⟨fault, hfault⟩
      cases hfault
  | name n | label n => exact iff_of_false (hname n) hnone
  | add l r ihl ihr | sub l r ihl ihr =>
      refine (fails_sum_iff _).trans ((or_congr ihl ihr).trans ?_)
      simp only [halves, List.mem_append, or_and_right, exists_or]
  | low o ih | high o ih =>
      refine (fails_half_iff _).trans ((or_congr ih overflows_iff.symm).trans ?_)
      simp only [halves, List.mem_append, List.mem_singleton, or_and_right, exists_or, exists_eq_left]

end Operand

-- ── References ──────────────────────────────────────────────────────────────

namespace Symbols

/-- A name is unknown and has no reference at a cursor. -/
def Lacks (s : Symbols) (cursor : Number) (n : String) : Prop :=
  s.labels.find? n = none ∧ ∀ r ∈ s.references, ¬(r.name = n ∧ r.address = cursor)

instance (s : Symbols) (cursor : Number) (n : String) : Decidable (s.Lacks cursor n) :=
  inferInstanceAs (Decidable (_ ∧ _))

/-- The table with references to names at a cursor behind the others. -/
def refer (s : Symbols) (cursor : Number) (names : List String) : Symbols :=
  { s with references := s.references ++ names.map (fun n => ⟨n, cursor, none⟩) }

variable {cursor : Number}

/-- A name that is used in discovery gets a reference, unless it is known or has one. -/
theorem use_discovery (hcursor : cursor ≠ .nan) (s : Symbols) (n : String) :
    s.use .discovery cursor n = if s.Lacks cursor n then s.refer cursor [n] else s := by
  have hnoted : s.references.any (fun r => r.name == n && r.address.equals cursor) = true ↔
      ∃ r ∈ s.references, r.name = n ∧ r.address = cursor := by
    rw [List.any_eq_true]
    refine exists_congr (fun r => and_congr_right (fun _ => ?_))
    rw [Bool.and_eq_true, beq_iff_eq, Number.equals_iff hcursor]
  unfold use
  cases hfind : s.labels.find? n with
  | some a => rw [if_neg (fun h => by rw [h.1] at hfind; cases hfind)]
  | none =>
      show s.note n cursor = _
      unfold note
      by_cases hany : ∃ r ∈ s.references, r.name = n ∧ r.address = cursor
      · obtain ⟨r, hr, hsame⟩ := hany
        rw [if_pos (hnoted.mpr ⟨r, hr, hsame⟩), if_neg (fun h => h.2 r hr hsame)]
      · rw [if_neg (fun h => hany (hnoted.mp h)), if_pos ⟨hfind, fun r hr hsame => hany ⟨r, hr, hsame⟩⟩]
        rfl

/-- With a reference to one name, another one lacks what it lacked. -/
theorem lacks_refer {s : Symbols} {n n' : String} :
    (s.refer cursor [n]).Lacks cursor n' ↔ n' ≠ n ∧ s.Lacks cursor n' := by
  unfold Lacks refer
  simp only [List.map_cons, List.map_nil, List.mem_append, List.mem_singleton]
  constructor
  · rintro ⟨hfind, hnone⟩
    exact ⟨fun heq => hnone _ (Or.inr rfl) ⟨heq.symm, rfl⟩, hfind, fun r hr => hnone r (Or.inl hr)⟩
  · rintro ⟨hne, hfind, hnone⟩
    refine ⟨hfind, ?_⟩
    rintro r (hr | rfl)
    · exact hnone r hr
    · exact fun hsame => hne hsame.1.symm

/-- Names that are used one after the other get references where they first occur. -/
theorem foldl_use_discovery (hcursor : cursor ≠ .nan) (names : List String) (s : Symbols) :
    names.foldl (use .discovery cursor) s =
      s.refer cursor (names.filter (fun n => s.Lacks cursor n)).eraseDups := by
  induction names generalizing s with
  | nil =>
      show s = { s with references := s.references ++ [] }
      rw [List.append_nil]
  | cons n rest ih =>
      rw [List.foldl_cons, ih, use_discovery hcursor]
      by_cases hlacks : s.Lacks cursor n
      · have hothers : rest.filter (fun n' => (s.refer cursor [n]).Lacks cursor n') =
            (rest.filter (fun n' => s.Lacks cursor n')).filter (fun n' => !n' == n) := by
          rw [List.filter_filter]
          refine List.filter_congr (fun n' _ => ?_)
          simp only [lacks_refer, Bool.decide_and, ne_eq, decide_not, beq_eq_decide]
        rw [if_pos hlacks, hothers, List.filter_cons_of_pos (by rw [decide_eq_true hlacks]),
          List.eraseDups_cons]
        simp only [refer, List.append_assoc, List.map_cons, List.map_nil, List.singleton_append]
      · rw [if_neg hlacks, List.filter_cons_of_neg (by rw [decide_eq_false hlacks]; exact Bool.false_ne_true)]

end Symbols

-- ── Both passes ─────────────────────────────────────────────────────────────

/-- The outcome of an operand. Discovery fails exactly if a byte is taken of an operand without unknown
    labels whose amount is no word; otherwise its answer is pending exactly if a name is unknown, is the
    amount of the operand if it is not pending, and leaves references to the unknown names that had none here,
    each where it first occurs. The final pass answers exactly with what the operand amounts to, and changes
    nothing. -/
theorem operand_outcome (s : Symbols) (cursor : Number) (hcursor : cursor ≠ .nan) (o : Operand) :
    let discovery := ((Scope.atCursor cursor .discovery).evaluate o).exec s
    let final := ((Scope.atCursor cursor .final).evaluate o).exec s
    ((∃ fault, discovery.1 = .error fault) ↔ ∃ part ∈ o.halves, part.Overflows s.labels cursor) ∧
    (∀ v, discovery.1 = .ok v →
      (v.pending = true ↔ ∃ n ∈ o.names, s.labels.find? n = none) ∧
      (v.pending = false → ∀ x, o.Amounts s.labels cursor x ↔ x = v.amount) ∧
      discovery.2 = s.refer cursor (o.names.filter (fun n => s.Lacks cursor n)).eraseDups) ∧
    (∀ v, final.1 = .ok v ↔ v.pending = false ∧ o.Amounts s.labels cursor v.amount) ∧
    final.2 = s := by
  intro discovery final
  have hreads := o.reads_evaluate .discovery cursor
  have hdiscovery : discovery.1 = o.valueIn (s.lookup .discovery) cursor := hreads.outcome s
  have hfinal : final = (o.valueIn (s.lookup .final) cursor, s) := o.exec_evaluate_final cursor s
  refine ⟨?_, fun v hv => ?_, fun v => ?_, by rw [hfinal]⟩
  · rw [hdiscovery]
    exact Operand.valueIn_discovery_fails_iff
  · have huses := hreads.uses s v hv
    rw [hdiscovery] at hv
    exact ⟨Operand.pending_discovery_iff hv, Operand.amounts_iff hv,
      huses.trans (Symbols.foldl_use_discovery hcursor o.names s)⟩
  · rw [hfinal]
    exact Operand.valueIn_final_iff

/-- A table with one label and one reference. -/
def Symbols.halfway : Symbols :=
  ⟨Table.empty.insert "near" 65535, [⟨"noted", 4096, none⟩], .empty, [], 12345⟩

/-- Placeholders pass where amounts do not: of two names that are still to come only the one without a
    reference is noted, and once, while the known label plus one is no word. -/
theorem unknown_labels_are_noted_once :
    let pending : Operand := .add (.low (.add (.name "noted") (.number 70000)))
      (.sub (.name "later") (.high (.sub (.label "later") (.name "near"))))
    (4096 : Number) ≠ .nan ∧
    (∃ v, ((Scope.atCursor 4096 .discovery).evaluate pending).exec .halfway =
      (.ok v, Symbols.halfway.refer 4096 ["later"]) ∧ v.pending = true) ∧
    ∃ fault, (((Scope.atCursor 4096 .discovery).evaluate
      (.add pending (.high (.add (.name "near") (.number 1))))).exec .halfway).1 = .error fault := by
  intro pending
  have hcursor : (4096 : Number) ≠ .nan := by decide
  refine ⟨hcursor, ?_, ?_⟩
  · obtain ⟨-, hok, -⟩ := operand_outcome .halfway 4096 hcursor pending
    have hanswer : (((Scope.atCursor 4096 .discovery).evaluate pending).exec .halfway).1 =
        .ok ⟨.ofNat 12466, true⟩ := by decide +kernel
    obtain ⟨hpending, -, hstate⟩ := hok _ hanswer
    refine ⟨_, Prod.ext hanswer (hstate.trans ?_), hpending.mpr ⟨"later", by decide, rfl⟩⟩
    decide +kernel
  · obtain ⟨hfails, -⟩ := operand_outcome .halfway 4096 hcursor
      (.add pending (.high (.add (.name "near") (.number 1))))
    have hsum : Number.ofAddress 65535 + 1 = .ofNat 65536 := by decide +kernel
    refine hfails.mpr ⟨.add (.name "near") (.number 1), by decide, by decide, _,
      .add (.name rfl) (.number 1), ?_⟩
    intro n hn heq
    have hn' := Number.ofNat_injective (hsum.symm.trans heq)
    omega

end Asm6502
