import Mathlib.Data.List.Nodup
import Asm6502.Proofs.Placement

/-!
# Letter case

Mnemonics, directives and registers may be written in either case. A text in which one of them is spelled
with the same letters in another case is cut at the same places and derived by the same rules, so it says
the same.

Which names are registers, and which are names of values, only a derivation tells: `keywords` are the
tokens of a derivation that the grammar fixes up to letter case.

* `Cut.respelled`: one token spelled in another case.
* `Grammar.Line.keywords`: the tokens of which the letter case is free.
* `respelled_lines`: a derivation with one keyword spelled in another case.
-/

namespace Asm6502.Source

-- ── Characters ──────────────────────────────────────────────────────────────

/-- A function of characters that does not tell lower case letters from upper case ones does not see
    letter case. -/
theorem apply_toUpper {β : Type} {f : Char → β}
    (hlower : ∀ n < 26, f (Char.ofNat (97 + n)).toUpper = f (Char.ofNat (97 + n))) (c : Char) :
    f c.toUpper = f c := by
  by_cases h : 'a'.val ≤ c.val ∧ c.val ≤ 'z'.val
  · have hlow : 97 ≤ c.toNat := h.1
    have hhigh : c.toNat ≤ 122 := h.2
    have hc := hlower (c.toNat - 97) (by omega)
    rwa [show 97 + (c.toNat - 97) = c.toNat by omega, Char.ofNat_toNat] at hc
  · have hsame : c.toUpper = c := by
      unfold Char.toUpper
      rw [dif_neg h]
    rw [hsame]

theorem isNameStart_toUpper (c : Char) : isNameStart c.toUpper = isNameStart c :=
  apply_toUpper (by decide) c

theorem isNameChar_toUpper (c : Char) : isNameChar c.toUpper = isNameChar c :=
  apply_toUpper (by decide) c

theorem prolongsName_toUpper (c : Char) : prolongsName c.toUpper = prolongsName c :=
  apply_toUpper (by decide) c

theorem isDigitIn_toUpper (base : Nat) (c : Char) : isDigitIn base c.toUpper = isDigitIn base c := by
  have hvalue : digitValue? c.toUpper = digitValue? c := apply_toUpper (by decide) c
  unfold isDigitIn
  rw [hvalue]

/-- The position after a character does not depend on its case. -/
theorem Position.next_toUpper (p : Position) (c : Char) : p.next c.toUpper = p.next c := by
  have hline : decide (c.toUpper = '\n') = decide (c = '\n') :=
    apply_toUpper (f := fun c => decide (c = '\n')) (by decide) c
  have hwidth : Text.width c.toUpper = Text.width c := apply_toUpper (by decide) c
  unfold next
  rw [hwidth]
  exact if_congr (decide_eq_decide.mp hline) rfl rfl

-- ── Texts ───────────────────────────────────────────────────────────────────

/-- Two texts with the same letters, each in either case. -/
def SameLetters (text text' : List Char) : Prop := text'.map Char.toUpper = text.map Char.toUpper

namespace SameLetters

theorem append {text text' : List Char} (h : SameLetters text text') (before after : List Char) :
    SameLetters (before ++ (text ++ after)) (before ++ (text' ++ after)) := by
  unfold SameLetters at *
  rw [List.map_append, List.map_append, h, ← List.map_append, ← List.map_append]

theorem exists_cons {c : Char} {tail text' : List Char} (h : SameLetters (c :: tail) text') :
    ∃ c' tail', text' = c' :: tail' ∧ c'.toUpper = c.toUpper ∧ SameLetters tail tail' :=
  List.map_eq_cons_iff.mp h

theorem after {text text' : List Char} (h : SameLetters text text') (p : Position) :
    p.after text' = p.after text := by
  induction text generalizing text' p with
  | nil => rw [List.map_eq_nil_iff.mp h]
  | cons c tail ih =>
      obtain ⟨c', tail', rfl, hc, htail⟩ := h.exists_cons
      rw [Position.after_cons, Position.after_cons, ih htail, ← p.next_toUpper c', hc, p.next_toUpper]

theorem upperCase_eq {text text' : List Char} (h : SameLetters text text') :
    upperCase (String.ofList text') = upperCase (String.ofList text) := by
  unfold upperCase
  rw [String.toList_ofList, String.toList_ofList, h]

/-- A class that does not see letter case. -/
theorem forall_mem {text text' : List Char} (h : SameLetters text text') {f : Char → Bool}
    (hf : ∀ c : Char, f c.toUpper = f c) (hall : ∀ c ∈ text, f c = true) : ∀ c ∈ text', f c = true := by
  intro c hc
  have hmem : c.toUpper ∈ text.map Char.toUpper := h ▸ List.mem_map_of_mem hc
  obtain ⟨d, hd, hupper⟩ := List.mem_map.mp hmem
  rw [← hf c, ← hupper, hf d]
  exact hall d hd

theorem stops {text text' : List Char} (h : SameLetters text text') {f : Char → Bool}
    (hf : ∀ c : Char, f c.toUpper = f c) (hstops : Stops f text) : Stops f text' := by
  cases text with
  | nil =>
      rw [List.map_eq_nil_iff.mp h]
      exact hstops
  | cons c tail =>
      obtain ⟨c', tail', rfl, hc, -⟩ := h.exists_cons
      refine stops_cons ?_ tail'
      rw [← hf c', hc, hf c]
      exact hstops c rfl

theorem lineEnds {text text' : List Char} (h : SameLetters text text') (hends : LineEnds text) :
    LineEnds text' := by
  rcases hends with rfl | hhead
  · exact Or.inl (List.map_eq_nil_iff.mp h)
  · obtain ⟨tail, rfl⟩ := List.head?_eq_some_iff.mp hhead
    obtain ⟨c', tail', rfl, hc, -⟩ := h.exists_cons
    have hsame : decide (c'.toUpper = '\n') = decide (c' = '\n') :=
      apply_toUpper (f := fun c => decide (c = '\n')) (by decide) c'
    exact Or.inr (congrArg some ((decide_eq_decide.mp hsame).mp hc))

end SameLetters

-- ── Tokens ──────────────────────────────────────────────────────────────────

/-- Two kinds of tokens that a letter case tells apart, or nothing does. -/
inductive Token.Kind.Respelled : Token.Kind → Token.Kind → Prop where
  | directive (name : String) : Respelled (.directive name) (.directive name)
  | name {word word' : String} (h : upperCase word' = upperCase word) :
      Respelled (.identifier word) (.identifier word')

theorem Spelled.follow_toUpper {kind : Token.Kind} {word : List Char} {follow : Char → Bool}
    (h : Spelled kind word follow) (c : Char) : follow c.toUpper = follow c := by
  cases h with
  | hexadecimal _ _ => exact isDigitIn_toUpper 16 c
  | binary _ _ => exact isDigitIn_toUpper 2 c
  | decimal _ _ => exact isDigitIn_toUpper 10 c
  | directive _ => exact isNameChar_toUpper c
  | name _ _ => exact prolongsName_toUpper c
  | _ => rfl

/-- A name or a directive in another case. -/
theorem Spelled.respelled {kind : Token.Kind} {word word' : List Char} {follow : Char → Bool}
    (h : Spelled kind word follow) (hletters : SameLetters word word')
    (hkind : (∃ name, kind = .identifier name) ∨ ∃ name, kind = .directive name) :
    ∃ kind', kind.Respelled kind' ∧ Spelled kind' word' follow := by
  cases h with
  | directive hword =>
      obtain ⟨c', tail', rfl, hc, htail⟩ := hletters.exists_cons
      have hpoint : c' = '.' := by
        have hsame : decide (c'.toUpper = '.') = decide (c' = '.') :=
          apply_toUpper (f := fun c => decide (c = '.')) (by decide) c'
        exact (decide_eq_decide.mp hsame).mp hc
      rw [← hletters.upperCase_eq, hpoint]
      exact ⟨_, .directive _, .directive (htail.forall_mem isNameChar_toUpper hword)⟩
  | name hc htail =>
      obtain ⟨c', tail', rfl, hupper, hletters'⟩ := hletters.exists_cons
      refine ⟨_, .name hletters.upperCase_eq, .name ?_ (hletters'.forall_mem isNameChar_toUpper htail)⟩
      rw [← isNameStart_toUpper, hupper, isNameStart_toUpper]
      exact hc
  | punctuation hc =>
      unfold Token.Kind.ofPunctuation? at hc
      rcases hkind with ⟨name, rfl⟩ | ⟨name, rfl⟩ <;> split at hc <;> cases hc
  | _ => rcases hkind with ⟨name, hname⟩ | ⟨name, hname⟩ <;> cases hname

/-- A text with one token spelled in another case is cut at the same places. -/
theorem Cut.respelled {text : List Char} {front back : List Piece} {word word' : List Char}
    {kind : Token.Kind} (h : Cut text (front ++ ⟨word, some kind⟩ :: back))
    (hletters : SameLetters word word')
    (hkind : (∃ name, kind = .identifier name) ∨ ∃ name, kind = .directive name) :
    ∃ kind', kind.Respelled kind' ∧ Cut (Piece.flat front ++ (word' ++ Piece.flat back))
      (front ++ ⟨word', some kind'⟩ :: back) := by
  have hflat : ∀ (front : List Piece), Piece.flat (front ++ ⟨word, some kind⟩ :: back) =
      Piece.flat front ++ (word ++ Piece.flat back) := by
    intro front
    rw [Piece.flat_append, Piece.flat_cons]
  induction front generalizing text with
  | nil =>
      cases h with
      | token hword hstops hrest =>
          obtain ⟨kind', hrespelled, hword'⟩ := hword.respelled hletters hkind
          rw [← hrest.flat] at hstops
          exact ⟨kind', hrespelled, .token hword' hstops (hrest.flat ▸ hrest)⟩
  | cons piece front ih =>
      rw [List.cons_append] at h
      rw [Piece.flat_cons, List.append_assoc]
      cases h with
      | blank hc hrest =>
          obtain ⟨kind', hrespelled, hcut⟩ := ih hrest
          exact ⟨kind', hrespelled, .blank hc hcut⟩
      | comment hwords hends hrest =>
          obtain ⟨kind', hrespelled, hcut⟩ := ih hrest
          rw [← hrest.flat, hflat] at hends
          exact ⟨kind', hrespelled, .comment hwords ((hletters.append _ _).lineEnds hends) hcut⟩
      | token hword hstops hrest =>
          obtain ⟨kind', hrespelled, hcut⟩ := ih hrest
          rw [← hrest.flat, hflat] at hstops
          exact ⟨kind', hrespelled,
            .token hword ((hletters.append _ _).stops hword.follow_toUpper hstops) hcut⟩

-- ── Keywords of a derivation ────────────────────────────────────────────────

namespace Grammar

/-- The tokens that are names of registers. -/
def OperandForm.registers : OperandForm → List Token
  | .accumulator register => [register.token]
  | .indexedIndirect _ _ _ register _ => [register.token]
  | .indirectIndexed _ _ _ _ register => [register.token]
  | .indexed _ _ _ register => [register.token]
  | .immediate _ _ => []
  | .indirect _ _ _ => []
  | .direct _ _ => []

/-- The tokens of a phrase that the grammar fixes up to letter case: a directive, or a mnemonic and a
    register. -/
def Phrase.keywords : Phrase → List Token
  | .directive d position _ => [⟨.directive d.name, position⟩]
  | .assignment _ _ _ _ => []
  | .instruction _ word _ position operand =>
    ⟨.identifier word, position⟩ :: operand.elim [] OperandForm.registers

def Line.keywords (l : Line) : List Token := l.phrase.elim [] Phrase.keywords

variable {kind kind' : Token.Kind} {p : Position}

theorem RegisterName.respelled {register : String} (r : RegisterName register)
    (h : ⟨kind, p⟩ = r.token) (hkind : kind.Respelled kind') :
    ∃ r' : RegisterName register, r'.token = ⟨kind', p⟩ := by
  obtain ⟨rfl, rfl⟩ := Token.mk.inj h
  cases hkind with
  | name hupper => exact ⟨⟨_, r.position, hupper.trans r.spells⟩, rfl⟩

theorem OperandForm.respelled {x : OperandForm} (h : ⟨kind, p⟩ ∈ x.registers)
    (hkind : kind.Respelled kind') :
    ∃ before after x', x.tokens = before ++ ⟨kind, p⟩ :: after ∧
      OperandForm.tokens x' = before ++ ⟨kind', p⟩ :: after ∧ x'.form = x.form := by
  cases x with
  | accumulator r =>
      have hr := List.mem_singleton.mp h
      obtain ⟨r', hr'⟩ := r.respelled hr hkind
      refine ⟨[], [], .accumulator r', ?_, ?_, rfl⟩
      · rw [hr]
        rfl
      · rw [← hr']
        rfl
  | indexedIndirect opening value comma r closing =>
      have hr := List.mem_singleton.mp h
      obtain ⟨r', hr'⟩ := r.respelled hr hkind
      refine ⟨⟨.leftParen, opening⟩ :: (value.tokens ++ [⟨.comma, comma⟩]), [⟨.rightParen, closing⟩],
        .indexedIndirect opening value comma r' closing, ?_, ?_, rfl⟩
      · rw [hr, List.cons_append, List.append_assoc]
        rfl
      · rw [← hr', List.cons_append, List.append_assoc]
        rfl
  | indirectIndexed opening value closing comma r =>
      have hr := List.mem_singleton.mp h
      obtain ⟨r', hr'⟩ := r.respelled hr hkind
      refine ⟨⟨.leftParen, opening⟩ :: (value.tokens ++ [⟨.rightParen, closing⟩, ⟨.comma, comma⟩]), [],
        .indirectIndexed opening value closing comma r', ?_, ?_, rfl⟩
      · rw [hr, List.cons_append, List.append_assoc]
        rfl
      · rw [← hr', List.cons_append, List.append_assoc]
        rfl
  | indexed value comma index r =>
      have hr := List.mem_singleton.mp h
      obtain ⟨r', hr'⟩ := r.respelled hr hkind
      refine ⟨value.tokens ++ [⟨.comma, comma⟩], [], .indexed value comma index r', ?_, ?_, rfl⟩
      · rw [hr, List.append_assoc]
        rfl
      · rw [← hr', List.append_assoc]
        rfl
  | immediate hash value => cases h
  | indirect opening value closing => cases h
  | direct value proper => cases h

theorem Phrase.respelled {phrase : Phrase} (h : ⟨kind, p⟩ ∈ phrase.keywords)
    (hkind : kind.Respelled kind') :
    ∃ before after phrase', phrase.first :: phrase.others = before ++ ⟨kind, p⟩ :: after ∧
      Phrase.first phrase' :: Phrase.others phrase' = before ++ ⟨kind', p⟩ :: after ∧
      phrase'.statement = phrase.statement := by
  cases phrase with
  | directive d position args =>
      obtain ⟨rfl, rfl⟩ := Token.mk.inj (List.mem_singleton.mp h)
      cases hkind
      exact ⟨[], _, .directive d p args, rfl, rfl, rfl⟩
  | assignment name position equals value => cases h
  | instruction m word spells position operand =>
      rcases List.mem_cons.mp h with hfirst | hregister
      · obtain ⟨rfl, rfl⟩ := Token.mk.inj hfirst
        cases hkind with
        | @name _ word' hupper =>
            exact ⟨[], _, .instruction m word' (hupper.trans spells) p operand, rfl, rfl, rfl⟩
      · cases operand with
        | none => cases hregister
        | some x =>
            obtain ⟨before, after, x', hx, hx', hform⟩ := OperandForm.respelled hregister hkind
            refine ⟨⟨.identifier word, position⟩ :: before, after,
              .instruction m word spells position (some x'), ?_, ?_, ?_⟩
            · exact congrArg (_ :: ·) hx
            · exact congrArg (_ :: ·) hx'
            · exact congrArg (fun form => Statement.mk (.instruction m (some form)) position) hform

/-- One keyword of a line in another case. -/
theorem Line.respelled {l : Line} (h : ⟨kind, p⟩ ∈ l.keywords) (hkind : kind.Respelled kind') :
    ∃ before after l', l.tokens = before ++ ⟨kind, p⟩ :: after ∧
      Line.tokens l' = before ++ ⟨kind', p⟩ :: after ∧ l'.statements = l.statements := by
  obtain ⟨labels, phrase⟩ := l
  cases phrase with
  | none => cases h
  | some phrase =>
      obtain ⟨before, after, phrase', hphrase, hphrase', hstatement⟩ := Phrase.respelled h hkind
      refine ⟨labels.map Label.token ++ before, after, ⟨labels, some phrase'⟩, ?_, ?_, ?_⟩
      · exact (congrArg (labels.map Label.token ++ ·) hphrase).trans (List.append_assoc ..).symm
      · exact (congrArg (labels.map Label.token ++ ·) hphrase').trans (List.append_assoc ..).symm
      · exact congrArg (fun s => labels.map Label.statement ++ [s]) hstatement

/-- Keywords are names and directives. -/
theorem Line.isKeyword {l : Line} (h : ⟨kind, p⟩ ∈ l.keywords) :
    (∃ name, kind = .identifier name) ∨ ∃ name, kind = .directive name := by
  have hregister : ∀ {x : OperandForm}, ⟨kind, p⟩ ∈ x.registers → ∃ name, kind = .identifier name := by
    intro x hx
    cases x with
    | immediate _ _ => cases hx
    | indirect _ _ _ => cases hx
    | direct _ _ => cases hx
    | _ => exact ⟨_, (Token.mk.inj (List.mem_singleton.mp hx)).1⟩
  obtain ⟨labels, phrase⟩ := l
  cases phrase with
  | none => cases h
  | some phrase =>
      cases phrase with
      | directive d position args => exact Or.inr ⟨_, (Token.mk.inj (List.mem_singleton.mp h)).1⟩
      | assignment name position equals value => cases h
      | instruction m word spells position operand =>
          refine Or.inl ?_
          rcases List.mem_cons.mp h with hfirst | hlater
          · exact ⟨_, (Token.mk.inj hfirst).1⟩
          · cases operand with
            | none => cases hlater
            | some x => exact hregister hlater

end Grammar

-- ── Lines with one keyword in another case ──────────────────────────────────

theorem flatten_splitOnP {α : Type} (q : α → Bool) (list : List α) :
    (list.splitOnP q).flatten = list.filter (fun a => !q a) := by
  induction list with
  | nil => rfl
  | cons a list ih =>
      obtain ⟨first, others, hsplit⟩ := List.exists_cons_of_ne_nil (List.splitOnP_ne_nil q list)
      rw [List.splitOnP_cons_eq_if_modifyHead]
      rw [hsplit] at ih ⊢
      cases hq : q a with
      | true =>
          rw [if_pos rfl, List.filter_cons_of_neg (by rw [hq]; decide), ← ih]
          rfl
      | false =>
          rw [if_neg Bool.false_ne_true, List.filter_cons_of_pos (by rw [hq]; decide), ← ih]
          rfl

theorem splitOnP_map {α : Type} {q : α → Bool} {f : α → α} (hf : ∀ a, q (f a) = q a) (list : List α) :
    (list.map f).splitOnP q = (list.splitOnP q).map (List.map f) := by
  induction list with
  | nil => rfl
  | cons a list ih =>
      obtain ⟨first, others, hsplit⟩ := List.exists_cons_of_ne_nil (List.splitOnP_ne_nil q list)
      rw [List.map_cons, List.splitOnP_cons_eq_if_modifyHead, List.splitOnP_cons_eq_if_modifyHead, hf, ih,
        hsplit]
      cases q a <;> rfl

/-- One token put in the place of another. -/
def Token.substitute (old new t : Token) : Token := if t = old then new else t

theorem Token.map_substitute_of_not_mem {old new : Token} {tokens : List Token} (h : old ∉ tokens) :
    tokens.map (substitute old new) = tokens := by
  have hsame : ∀ t ∈ tokens, substitute old new t = t := by
    intro t ht
    refine if_neg ?_
    rintro rfl
    exact h ht
  rw [List.map_congr_left hsame, List.map_id']

theorem Token.map_substitute {old new : Token} {front back : List Token}
    (h : (front ++ old :: back).Nodup) :
    (front ++ old :: back).map (substitute old new) = front ++ new :: back := by
  have hother := (List.nodup_cons.mp (List.nodup_middle.mp h)).1
  rw [List.map_append, List.map_cons,
    map_substitute_of_not_mem (fun hmem => hother (List.mem_append_left back hmem)),
    map_substitute_of_not_mem (fun hmem => hother (List.mem_append_right front hmem)), substitute,
    if_pos rfl]

theorem Token.Kind.Respelled.ne_newline {kind kind' : Token.Kind} (h : kind.Respelled kind') :
    kind ≠ .newline ∧ kind' ≠ .newline := by
  cases h <;> exact ⟨by simp, by simp⟩

/-- A derivation of lines, with one keyword in another case. No token occurs twice, so the keyword stands in
    one line, and in one place of it. -/
theorem respelled_lines {lines : List Grammar.Line} {front back : List Token} {kind kind' : Token.Kind}
    {p : Position} (hnodup : (front ++ ⟨kind, p⟩ :: back).Nodup)
    (hlines : lines.map Grammar.Line.tokens =
      (front ++ ⟨kind, p⟩ :: back).splitOnP (fun t => t.kind = .newline))
    (hkeyword : ⟨kind, p⟩ ∈ lines.flatMap Grammar.Line.keywords) (hkind : kind.Respelled kind') :
    ∃ lines' : List Grammar.Line, lines'.map Grammar.Line.tokens =
        (front ++ ⟨kind', p⟩ :: back).splitOnP (fun t => t.kind = .newline) ∧
      lines'.flatMap Grammar.Line.statements = lines.flatMap Grammar.Line.statements := by
  have hclass : ∀ t : Token, decide ((Token.substitute ⟨kind, p⟩ ⟨kind', p⟩ t).kind = .newline) =
      decide (t.kind = .newline) := by
    intro t
    unfold Token.substitute
    split
    · rename_i ht
      rw [ht, decide_eq_false hkind.ne_newline.1, decide_eq_false hkind.ne_newline.2]
    · rfl
  obtain ⟨line, hline, htoken⟩ := List.mem_flatMap.mp hkeyword
  obtain ⟨above, below, rfl⟩ := List.append_of_mem hline
  obtain ⟨before, after, line', htokens, htokens', hstatements⟩ := Grammar.Line.respelled htoken hkind
  -- the tokens of the lines are all the tokens but the line ends
  have hflat : above.flatMap Grammar.Line.tokens ++ ((before ++ ⟨kind, p⟩ :: after) ++
      below.flatMap Grammar.Line.tokens) = (front ++ ⟨kind, p⟩ :: back).filter
        (fun t => !decide (t.kind = .newline)) := by
    rw [← htokens, ← List.flatMap_cons, ← List.flatMap_append, List.flatMap_def, hlines,
      flatten_splitOnP]
  have hall := hnodup.filter (fun t => !decide (t.kind = .newline))
  rw [← hflat] at hall
  obtain ⟨-, hinside, hdisjoint⟩ := List.nodup_append.mp hall
  obtain ⟨hline, -, hbelow⟩ := List.nodup_append.mp hinside
  have hothers : ∀ l ∈ above ++ below, ⟨kind, p⟩ ∉ l.tokens := by
    intro l hl hmem
    rcases List.mem_append.mp hl with hl | hl
    · exact hdisjoint _ (List.mem_flatMap.mpr ⟨l, hl, hmem⟩) ⟨kind, p⟩ (by simp) rfl
    · exact hbelow ⟨kind, p⟩ (by simp) _ (List.mem_flatMap.mpr ⟨l, hl, hmem⟩) rfl
  refine ⟨above ++ line' :: below, ?_, ?_⟩
  · have hsame : ∀ l ∈ above ++ below,
        l.tokens.map (Token.substitute ⟨kind, p⟩ ⟨kind', p⟩) = l.tokens :=
      fun l hl => Token.map_substitute_of_not_mem (hothers l hl)
    obtain ⟨habove, hbelow⟩ := List.forall_mem_append.mp hsame
    rw [← Token.map_substitute hnodup, splitOnP_map hclass, ← hlines, List.map_map, List.map_append,
      List.map_append, List.map_cons, List.map_cons]
    refine congr (congrArg _ (List.map_congr_left (fun l hl => (habove l hl).symm))) ?_
    refine congr (congrArg _ ?_) (List.map_congr_left (fun l hl => (hbelow l hl).symm))
    rw [Function.comp_apply, htokens, htokens', Token.map_substitute hline]
  · rw [List.flatMap_append, List.flatMap_cons, hstatements, ← List.flatMap_cons, ← List.flatMap_append]

end Asm6502.Source
