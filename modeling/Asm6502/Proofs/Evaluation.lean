import Asm6502.Proofs.Coupling
import Asm6502.Proofs.Exactness
import Asm6502.Symbols

/-!
# What an operand amounts to

Evaluating an operand does two things: it finds a value and it notes the unknown names on the way. The
value depends on the names and the cursor alone.

* `Operand.valueIn`: the value of an operand, given what names stand for; nothing is noted.
* `Operand.reads_evaluate`: evaluation finds that value and notes the unknown names from left to right.
* `Operand.exec_evaluate_final`: in the final pass it notes none.
* `Operand.valueIn_agree`: two ways to read names that agree give values that agree.
-/

namespace Asm6502

open Asm6502.Action (Moves Parting)

-- ── Words ───────────────────────────────────────────────────────────────────

theorem checkWord_eq_ok_iff {x : Number} {w : UInt16} : checkWord x = .ok w ↔ x = .ofAddress w := by
  rw [← Number.toAddress?_eq_some_iff]
  unfold checkWord
  cases x.toAddress? with
  | some a => rw [Except.ok.injEq, Option.some.injEq]
  | none => exact iff_of_false (fun h => by cases h) (fun h => by cases h)

theorem checkWord_ofNat {n : Nat} (h : n < 65536) : checkWord (.ofNat n) = .ok (UInt16.ofNat n) := by
  rw [checkWord_eq_ok_iff, Number.ofAddress, UInt16.toNat_ofNat_of_lt' h]

theorem ofByte_ofNat {n : Nat} (h : n < 256) : Number.ofByte (UInt8.ofNat n) = .ofNat n := by
  rw [Number.ofByte, UInt8.toNat_ofNat_of_lt' h]

/-- A known value that is a word is that word. -/
theorem Value.amount_of_word {v : Value} {w : UInt16} (hv : v.pending = false) (h : v.word = .ok w) :
    v.amount = .ofAddress w := by
  rw [Value.word, hv, if_neg Bool.false_ne_true] at h
  exact checkWord_eq_ok_iff.mp h

-- ── Values without notes ────────────────────────────────────────────────────

namespace Symbols

/-- What a name stands for in a pass. -/
def lookup (s : Symbols) (pass : Pass) (name : String) : Except Fault Value :=
  match s.labels.find? name, pass with
  | some a, _ => .ok ⟨.ofAddress a, false⟩
  | none, .final => .error (.undefinedLabel name)
  | none, .discovery => .ok ⟨.ofAddress s.placeholder, true⟩

/-- The table after a name was used at a cursor: an unknown one is noted in discovery. -/
def use (pass : Pass) (cursor : Number) (s : Symbols) (name : String) : Symbols :=
  match s.labels.find? name, pass with
  | none, .discovery => s.note name cursor
  | _, _ => s

theorem exec_resolve (pass : Pass) (cursor : Number) (name : String) (s : Symbols) :
    (resolve pass cursor name).exec s = (s.lookup pass name, s.use pass cursor name) := by
  unfold resolve lookup use
  rw [Action.exec_bind_of_ok (Action.exec_get s)]
  cases s.labels.find? name <;> cases pass <;> rfl

/-- A use changes the references at most. -/
theorem use_eq (pass : Pass) (cursor : Number) (s : Symbols) (name : String) :
    ∃ references, s.use pass cursor name = { s with references } := by
  unfold use
  split
  · unfold note
    split
    · exact ⟨s.references, rfl⟩
    · exact ⟨_, rfl⟩
  · exact ⟨s.references, rfl⟩

end Symbols

namespace Operand

/-- The names in an operand, from left to right. -/
def names : Operand → List String
  | .number _ => []
  | .name n => [n]
  | .label n => [n]
  | .here => []
  | .add l r => l.names ++ r.names
  | .sub l r => l.names ++ r.names
  | .low o => o.names
  | .high o => o.names

/-- The value of an operand at a cursor, where `read` tells what names stand for. -/
def valueIn (read : String → Except Fault Value) (cursor : Number) : Operand → Except Fault Value
  | .number v => .ok ⟨v, false⟩
  | .name n => read n
  | .label n => read n
  | .here => .ok ⟨cursor, false⟩
  | .add l r => do
    let a ← l.valueIn read cursor
    let b ← r.valueIn read cursor
    return ⟨a.amount + b.amount, a.pending || b.pending⟩
  | .sub l r => do
    let a ← l.valueIn read cursor
    let b ← r.valueIn read cursor
    return ⟨a.amount - b.amount, a.pending || b.pending⟩
  | .low o => do
    let v ← o.valueIn read cursor
    let w ← v.word
    return ⟨.ofByte (lowByte w), v.pending⟩
  | .high o => do
    let v ← o.valueIn read cursor
    let w ← v.word
    return ⟨.ofByte (highByte w), v.pending⟩

end Operand

/-- An action that reads names and notes them: it answers `answer`, given what names stand for, and uses
    `names` in their order. A failure may leave some of them unused. -/
structure Reads {α : Type} (pass : Pass) (cursor : Number)
    (answer : (String → Except Fault Value) → Except Fault α) (names : List String)
    (action : Action Symbols α) : Prop where
  outcome : ∀ s, (action.exec s).1 = answer (s.lookup pass)
  keeps : ∀ s, ∃ references, (action.exec s).2 = { s with references }
  uses : ∀ s a, (action.exec s).1 = .ok a → (action.exec s).2 = names.foldl (Symbols.use pass cursor) s

namespace Reads

variable {α β : Type} {pass : Pass} {cursor : Number}

/-- Whatever needs no name. -/
theorem check (c : Except Fault α) : Reads pass cursor (fun _ => c) [] (liftM c) :=
  ⟨fun _ => rfl, fun s => ⟨s.references, rfl⟩, fun _ _ _ => rfl⟩

theorem pure (a : α) : Reads pass cursor (fun _ => .ok a) [] (Pure.pure a) :=
  ⟨fun _ => rfl, fun s => ⟨s.references, rfl⟩, fun _ _ _ => rfl⟩

theorem resolve (n : String) :
    Reads pass cursor (fun read => read n) [n] (Symbols.resolve pass cursor n) where
  outcome s := by rw [Symbols.exec_resolve]
  keeps s := by rw [Symbols.exec_resolve]; exact Symbols.use_eq pass cursor s n
  uses s a _ := by rw [Symbols.exec_resolve]; rfl

/-- What names stand for does not change while they are read. -/
theorem bind {answer : (String → Except Fault Value) → Except Fault α} {names more : List String}
    {first : Action Symbols α} {next : α → Action Symbols β}
    {answer' : α → (String → Except Fault Value) → Except Fault β}
    (hfirst : Reads pass cursor answer names first)
    (hnext : ∀ a, Reads pass cursor (answer' a) more (next a)) :
    Reads pass cursor (fun read => answer read >>= fun a => answer' a read) (names ++ more)
      (first >>= next) := by
  have hrun : ∀ s, (∃ a s', first.exec s = (.ok a, s') ∧ answer (s.lookup pass) = .ok a ∧
      s' = names.foldl (Symbols.use pass cursor) s ∧ s'.lookup pass = s.lookup pass ∧
      ∃ references, s' = { s with references }) ∨
      ∃ e references, first.exec s = (.error e, { s with references }) ∧
        answer (s.lookup pass) = .error e := by
    intro s
    obtain ⟨references, hkeep⟩ := hfirst.keeps s
    have hout := hfirst.outcome s
    have huse := hfirst.uses s
    cases he : first.exec s with
    | mk outcome s' =>
        rw [he] at hkeep hout huse
        cases outcome with
        | ok a =>
            refine Or.inl ⟨a, s', rfl, hout.symm, huse a rfl, ?_, references, hkeep⟩
            rw [show s' = { s with references } from hkeep]
            rfl
        | error e =>
            refine Or.inr ⟨e, references, ?_, hout.symm⟩
            rw [show s' = { s with references } from hkeep]
  constructor
  · intro s
    rcases hrun s with ⟨a, s', hf, ha, -, hl, -⟩ | ⟨e, references, hf, he⟩
    · rw [Action.exec_bind_of_ok hf, (hnext a).outcome s', hl, ha]
      rfl
    · rw [Action.exec_bind_of_error hf, he]
      rfl
  · intro s
    rcases hrun s with ⟨a, s', hf, -, -, -, references, hk⟩ | ⟨e, references, hf, -⟩
    · rw [Action.exec_bind_of_ok hf]
      obtain ⟨references', h⟩ := (hnext a).keeps s'
      exact ⟨references', by rw [h, hk]⟩
    · rw [Action.exec_bind_of_error hf]
      exact ⟨references, rfl⟩
  · intro s b hb
    rcases hrun s with ⟨a, s', hf, -, hu, -, -⟩ | ⟨e, references, hf, -⟩
    · rw [Action.exec_bind_of_ok hf] at hb ⊢
      rw [(hnext a).uses s' b hb, hu, List.foldl_append]
    · rw [Action.exec_bind_of_error hf] at hb
      exact nomatch hb

end Reads

namespace Operand

/-- Evaluation finds the value and uses the names from left to right. -/
theorem reads_evaluate (pass : Pass) (cursor : Number) (o : Operand) :
    Reads pass cursor (fun read => o.valueIn read cursor) o.names
      (o.evaluate (Symbols.resolve pass cursor) cursor) := by
  induction o with
  | number v => exact Reads.pure _
  | here => exact Reads.pure _
  | name n => exact Reads.resolve n
  | label n => exact Reads.resolve n
  | add l r ihl ihr =>
      have h := ihl.bind (fun a => ihr.bind (fun b =>
        Reads.pure (Value.mk (a.amount + b.amount) (a.pending || b.pending))))
      rw [List.append_nil] at h
      exact h
  | sub l r ihl ihr =>
      have h := ihl.bind (fun a => ihr.bind (fun b =>
        Reads.pure (Value.mk (a.amount - b.amount) (a.pending || b.pending))))
      rw [List.append_nil] at h
      exact h
  | low o ih =>
      have h := ih.bind (fun v => (Reads.check v.word).bind (fun w =>
        Reads.pure (Value.mk (.ofByte (lowByte w)) v.pending)))
      rw [List.append_nil, List.append_nil] at h
      exact h
  | high o ih =>
      have h := ih.bind (fun v => (Reads.check v.word).bind (fun w =>
        Reads.pure (Value.mk (.ofByte (highByte w)) v.pending)))
      rw [List.append_nil, List.append_nil] at h
      exact h

/-- Evaluation leads where the names of the operand lead. -/
theorem moves_evaluate {σ : Type} {R : σ → σ → Prop} (hrefl : ∀ s, R s s)
    (htrans : ∀ r s t, R r s → R s t → R r t) {resolve : String → Action σ Value}
    (hresolve : ∀ name, Moves R (resolve name)) (cursor : Number) (o : Operand) :
    Moves R (o.evaluate resolve cursor) := by
  induction o with
  | number v => exact Moves.pure hrefl _
  | here => exact Moves.pure hrefl _
  | name n => exact hresolve n
  | label n => exact hresolve n
  | add l r ihl ihr =>
      exact Moves.bind htrans ihl (fun _ => Moves.bind htrans ihr (fun _ => Moves.pure hrefl _))
  | sub l r ihl ihr =>
      exact Moves.bind htrans ihl (fun _ => Moves.bind htrans ihr (fun _ => Moves.pure hrefl _))
  | low o ih =>
      exact Moves.bind htrans ih (fun _ =>
        Moves.bind htrans (Moves.check hrefl _) (fun _ => Moves.pure hrefl _))
  | high o ih =>
      exact Moves.bind htrans ih (fun _ =>
        Moves.bind htrans (Moves.check hrefl _) (fun _ => Moves.pure hrefl _))

/-- The final pass notes no name, also where one is looked up in vain. -/
theorem exec_evaluate_final (cursor : Number) (o : Operand) (s : Symbols) :
    (o.evaluate (Symbols.resolve .final cursor) cursor).exec s =
      (o.valueIn (s.lookup .final) cursor, s) := by
  have hresolve : ∀ name, Moves (fun s t : Symbols => t = s) (Symbols.resolve .final cursor name) := by
    intro name s
    rw [Symbols.exec_resolve]
    unfold Symbols.use
    cases s.labels.find? name <;> rfl
  have hsame := o.moves_evaluate (R := fun s t => t = s) (fun _ => rfl)
    (fun _ _ _ hst htu => htu.trans hst) hresolve cursor
  exact Prod.ext ((o.reads_evaluate .final cursor).outcome s) (hsame s)

end Operand

/-- A known byte part is of a word. -/
theorem Operand.value_of_part {read : String → Except Fault Value} {cursor x : Number} {o : Operand}
    {half : UInt16 → UInt8} (h : (do
      let v ← o.valueIn read cursor
      let w ← v.word
      return Value.mk (.ofByte (half w)) v.pending) = .ok ⟨x, false⟩) :
    ∃ w, o.valueIn read cursor = .ok ⟨.ofAddress w, false⟩ ∧ x = .ofByte (half w) := by
  obtain ⟨v, hv, h⟩ := Check.bind_eq_ok h
  obtain ⟨w, hw, h⟩ := Check.bind_eq_ok h
  obtain ⟨hx, hpending⟩ := Value.mk.inj (Except.ok.inj h)
  refine ⟨w, ?_, hx.symm⟩
  rw [← Value.amount_of_word hpending hw, ← hpending]
  exact hv

/-- A value is known exactly if all its names are. -/
theorem Operand.pending_eq_false_iff {read : String → Except Fault Value} {cursor : Number} {o : Operand}
    {v : Value} (h : o.valueIn read cursor = .ok v) :
    v.pending = false ↔ ∀ n ∈ o.names, ∃ u, read n = .ok u ∧ u.pending = false := by
  have hname : ∀ {v : Value} {n : String}, read n = .ok v →
      (v.pending = false ↔ ∀ n' ∈ [n], ∃ u, read n' = .ok u ∧ u.pending = false) := by
    intro v n hn
    rw [List.forall_mem_singleton, hn]
    constructor
    · intro hv
      exact ⟨v, rfl, hv⟩
    · rintro ⟨u, hu, hknown⟩
      rw [Except.ok.inj hu]
      exact hknown
  induction o generalizing v with
  | number x =>
      rw [← Except.ok.inj h]
      exact iff_of_true rfl (fun n hn => nomatch hn)
  | here =>
      rw [← Except.ok.inj h]
      exact iff_of_true rfl (fun n hn => nomatch hn)
  | name n => exact hname h
  | label n => exact hname h
  | add l r ihl ihr | sub l r ihl ihr =>
      obtain ⟨a, ha, h⟩ := Check.bind_eq_ok h
      obtain ⟨b, hb, h⟩ := Check.bind_eq_ok h
      rw [← Except.ok.inj h, names, List.forall_mem_append]
      exact Bool.or_eq_false_iff.trans (and_congr (ihl ha) (ihr hb))
  | low o ih | high o ih =>
      obtain ⟨a, ha, h⟩ := Check.bind_eq_ok h
      obtain ⟨w, -, h⟩ := Check.bind_eq_ok h
      have hpart := ih ha
      rw [← Except.ok.inj h]
      exact hpart

/-- No value is pending in the final pass. -/
theorem Operand.pending_of_final {s : Symbols} {cursor : Number} {o : Operand} {v : Value}
    (h : o.valueIn (s.lookup .final) cursor = .ok v) : v.pending = false := by
  have hname : ∀ {v : Value} {n : String}, s.lookup .final n = .ok v → v.pending = false := by
    intro v n hn
    unfold Symbols.lookup at hn
    cases hfind : s.labels.find? n with
    | some a => rw [hfind] at hn; rw [← Except.ok.inj hn]
    | none => rw [hfind] at hn; cases hn
  induction o generalizing v with
  | number x | here => rw [← Except.ok.inj h]
  | name n | label n => exact hname h
  | add l r ihl ihr | sub l r ihl ihr =>
      obtain ⟨a, ha, h⟩ := Check.bind_eq_ok h
      obtain ⟨b, hb, h⟩ := Check.bind_eq_ok h
      rw [← Except.ok.inj h]
      exact Bool.or_eq_false_iff.mpr ⟨ihl ha, ihr hb⟩
  | low o ih | high o ih =>
      obtain ⟨a, ha, h⟩ := Check.bind_eq_ok h
      obtain ⟨w, -, h⟩ := Check.bind_eq_ok h
      have hpart := ih ha
      rw [← Except.ok.inj h]
      exact hpart

-- ── Two ways to read names ──────────────────────────────────────────────────

/-- A relation between values that holds of equal constants and that sums and byte parts keep, up to the
    partings that a byte part may cause. -/
structure Respected (P : Parting) (Q : Value → Value → Prop) : Prop where
  constant : ∀ x, Q ⟨x, false⟩ ⟨x, false⟩
  sum : ∀ (op : Number → Number → Number) {a a' b b' : Value}, Q a a' → Q b b' →
    Q ⟨op a.amount b.amount, a.pending || b.pending⟩ ⟨op a'.amount b'.amount, a'.pending || b'.pending⟩
  part : ∀ (half : UInt16 → UInt8) {v v' : Value}, Q v v' →
    P.Agree (fun w w' => Q ⟨.ofByte (half w), v.pending⟩ ⟨.ofByte (half w'), v'.pending⟩) v.word v'.word

/-- If what names stand for agrees, then so do the values of every operand. -/
theorem Operand.valueIn_agree {P : Parting} {Q : Value → Value → Prop} (hQ : Respected P Q)
    {read read' : String → Except Fault Value} (cursor : Number)
    (hread : ∀ n, P.Agree Q (read n) (read' n)) (o : Operand) :
    P.Agree Q (o.valueIn read cursor) (o.valueIn read' cursor) := by
  induction o with
  | number v => exact .ok (hQ.constant v)
  | here => exact .ok (hQ.constant cursor)
  | name n => exact hread n
  | label n => exact hread n
  | add l r ihl ihr =>
      exact ihl.bind (fun _ _ ha => ihr.bind (fun _ _ hb => .ok (hQ.sum (· + ·) ha hb)))
  | sub l r ihl ihr =>
      exact ihl.bind (fun _ _ ha => ihr.bind (fun _ _ hb => .ok (hQ.sum (· - ·) ha hb)))
  | low o ih => exact ih.bind (fun _ _ hv => (hQ.part lowByte hv).bind (fun _ _ hw => .ok hw))
  | high o ih => exact ih.bind (fun _ _ hv => (hQ.part highByte hv).bind (fun _ _ hw => .ok hw))

/-- A value stays what it is where its names stand for the same. -/
theorem Operand.valueIn_mono {read read' : String → Except Fault Value} (cursor : Number)
    (hread : ∀ n v, read n = .ok v → read' n = .ok v) {o : Operand} {v : Value}
    (h : o.valueIn read cursor = .ok v) : o.valueIn read' cursor = .ok v := by
  have heq : Respected { left := fun _ => True } Eq := by
    refine ⟨fun _ => rfl, fun op a a' b b' ha hb => by rw [ha, hb], fun half v v' hv => ?_⟩
    rw [← hv]
    cases v.word with
    | ok w => exact .ok rfl
    | error fault => exact Or.inr (Or.inl ⟨fault, rfl, trivial⟩)
  have hnames : ∀ n, Parting.Agree { left := fun _ => True } Eq (read n) (read' n) := by
    intro n
    cases hn : read n with
    | ok w => rw [hread n w hn]; exact .ok rfl
    | error fault => exact Or.inr (Or.inl ⟨fault, rfl, trivial⟩)
  have hagree := o.valueIn_agree heq cursor hnames
  rw [h] at hagree
  rcases hagree.of_ok with ⟨w, hw, rfl⟩ | ⟨_, _, hno⟩
  · exact hw
  · exact hno.elim

end Asm6502
