import Asm6502.Proofs.Parsing

/-!
# Derivations at other positions

The grammar looks at the kinds of tokens only. So tokens of the same kinds at other positions have a
derivation too, of the same shape: it says the same, at the positions that its own tokens have. This holds
for each rule in turn, and for whole texts.

* `Token.Matches`, `Statement.Matches`: the same at positions in a relation.
* `Grammar.Line.rederive`: a derivation for matching tokens.
* `parseLines_of_matches`: streams of matching tokens have matching statements.
-/

namespace Asm6502.Source

open Grammar

/-- Two tokens of one kind, at positions in a relation. -/
structure Token.Matches (R : Position → Position → Prop) (t t' : Token) : Prop where
  kind : t'.kind = t.kind
  position : R t.position t'.position

/-- Two statements that say the same, at positions in a relation. -/
structure Statement.Matches (R : Position → Position → Prop) (s s' : Statement) : Prop where
  body : s'.body = s.body
  position : R s.position s'.position

-- ── Lists that match ────────────────────────────────────────────────────────

theorem exists_of_forall₂_append {α β : Type} {Q : α → β → Prop} {first second : List α} {list : List β}
    (h : List.Forall₂ Q (first ++ second) list) :
    ∃ first' second', list = first' ++ second' ∧ List.Forall₂ Q first first' ∧
      List.Forall₂ Q second second' := by
  induction first generalizing list with
  | nil => exact ⟨[], list, rfl, .nil, h⟩
  | cons a first ih =>
      obtain ⟨b, list', hab, hrest, rfl⟩ := List.forall₂_cons_left_iff.mp h
      obtain ⟨first', second', rfl, hfirst, hsecond⟩ := ih hrest
      exact ⟨b :: first', second', rfl, .cons hab hfirst, hsecond⟩

variable {R : Position → Position → Prop}

theorem exists_of_matches_cons {kind : Token.Kind} {p : Position} {rest tokens : List Token}
    (h : List.Forall₂ (Token.Matches R) (⟨kind, p⟩ :: rest) tokens) :
    ∃ p' rest', tokens = ⟨kind, p'⟩ :: rest' ∧ R p p' ∧ List.Forall₂ (Token.Matches R) rest rest' := by
  obtain ⟨⟨kind', p'⟩, rest', ⟨hkind, hp⟩, hrest, rfl⟩ := List.forall₂_cons_left_iff.mp h
  obtain rfl : kind' = kind := hkind
  exact ⟨p', rest', rfl, hp, hrest⟩

/-- Tokens match at any positions if they have the same kinds. -/
theorem matches_of_kinds {tokens tokens' : List Token}
    (h : tokens'.map (·.kind) = tokens.map (·.kind)) :
    List.Forall₂ (Token.Matches (fun _ _ => True)) tokens tokens' := by
  induction tokens generalizing tokens' with
  | nil =>
      rw [List.map_eq_nil_iff.mp h]
      exact .nil
  | cons t tokens ih =>
      obtain ⟨t', rest', rfl, ht, hrest⟩ := List.map_eq_cons_iff.mp h
      exact .cons ⟨ht, trivial⟩ (ih hrest)

-- ── Expressions ─────────────────────────────────────────────────────────────

theorem Grammar.Unary.rederive (u : Unary) {tokens : List Token}
    (h : List.Forall₂ (Token.Matches R) u.tokens tokens) :
    ∃ u' : Unary, u'.tokens = tokens ∧ u'.operand = u.operand := by
  induction u generalizing tokens with
  | low sign part ih =>
      obtain ⟨sign', rest, rfl, -, hrest⟩ := exists_of_matches_cons h
      obtain ⟨part', rfl, hpart⟩ := ih hrest
      exact ⟨.low sign' part', rfl, congrArg Operand.low hpart⟩
  | high sign part ih =>
      obtain ⟨sign', rest, rfl, -, hrest⟩ := exists_of_matches_cons h
      obtain ⟨part', rfl, hpart⟩ := ih hrest
      exact ⟨.high sign' part', rfl, congrArg Operand.high hpart⟩
  | negative sign part ih =>
      obtain ⟨sign', rest, rfl, -, hrest⟩ := exists_of_matches_cons h
      obtain ⟨part', rfl, hpart⟩ := ih hrest
      exact ⟨.negative sign' part', rfl, congrArg (Operand.sub (.number 0)) hpart⟩
  | number value position =>
      obtain ⟨position', rest, rfl, -, hrest⟩ := exists_of_matches_cons h
      rw [List.forall₂_nil_left_iff.mp hrest]
      exact ⟨.number value position', rfl, rfl⟩
  | name word position =>
      obtain ⟨position', rest, rfl, -, hrest⟩ := exists_of_matches_cons h
      rw [List.forall₂_nil_left_iff.mp hrest]
      exact ⟨.name word position', rfl, rfl⟩
  | here position =>
      obtain ⟨position', rest, rfl, -, hrest⟩ := exists_of_matches_cons h
      rw [List.forall₂_nil_left_iff.mp hrest]
      exact ⟨.here position', rfl, rfl⟩

theorem Grammar.Term.rederive_all (terms : List Term) {tokens : List Token}
    (h : List.Forall₂ (Token.Matches R) (terms.flatMap Term.tokens) tokens) :
    ∃ terms' : List Term, terms'.flatMap Term.tokens = tokens ∧
      ∀ left, terms'.foldl (fun left t => t.sign.apply left t.part.operand) left =
        terms.foldl (fun left t => t.sign.apply left t.part.operand) left := by
  induction terms generalizing tokens with
  | nil =>
      rw [List.forall₂_nil_left_iff.mp h]
      exact ⟨[], rfl, fun _ => rfl⟩
  | cons t terms ih =>
      obtain ⟨first, second, rfl, hfirst, hsecond⟩ := exists_of_forall₂_append h
      obtain ⟨position, rest, rfl, -, hrest⟩ := exists_of_matches_cons hfirst
      obtain ⟨part, rfl, hpart⟩ := t.part.rederive hrest
      obtain ⟨terms', rfl, hterms⟩ := ih hsecond
      refine ⟨⟨t.sign, position, part⟩ :: terms', rfl, fun left => ?_⟩
      rw [List.foldl_cons, List.foldl_cons, hterms, hpart]

theorem Grammar.Expression.rederive (e : Expression) {tokens : List Token}
    (h : List.Forall₂ (Token.Matches R) e.tokens tokens) :
    ∃ e' : Expression, e'.tokens = tokens ∧ e'.operand = e.operand := by
  obtain ⟨first, second, rfl, hfirst, hsecond⟩ := exists_of_forall₂_append h
  obtain ⟨u, rfl, hu⟩ := e.first.rederive hfirst
  obtain ⟨terms, rfl, hterms⟩ := Term.rederive_all e.terms hsecond
  refine ⟨⟨u, terms⟩, rfl, ?_⟩
  rw [Expression.operand, hterms, hu]
  rfl

-- ── Operands and arguments ──────────────────────────────────────────────────

theorem Grammar.RegisterName.rederive {register : String} (r : RegisterName register)
    {rest tokens : List Token} (h : List.Forall₂ (Token.Matches R) (r.token :: rest) tokens) :
    ∃ (r' : RegisterName register) (rest' : List Token), tokens = r'.token :: rest' ∧
      List.Forall₂ (Token.Matches R) rest rest' := by
  obtain ⟨position, rest', rfl, -, hrest⟩ := exists_of_matches_cons h
  exact ⟨⟨r.name, position, r.spells⟩, rest', rfl, hrest⟩

theorem Grammar.OperandForm.rederive (x : OperandForm) {tokens : List Token}
    (h : List.Forall₂ (Token.Matches R) x.tokens tokens) :
    ∃ x' : OperandForm, x'.tokens = tokens ∧ x'.form = x.form := by
  cases x with
  | immediate hash value =>
      obtain ⟨hash', rest, rfl, -, hrest⟩ := exists_of_matches_cons h
      obtain ⟨value', rfl, hvalue⟩ := value.rederive hrest
      exact ⟨.immediate hash' value', rfl, congrArg OperandSyntax.immediate hvalue⟩
  | accumulator register =>
      obtain ⟨register', rest, rfl, hrest⟩ := register.rederive h
      rw [List.forall₂_nil_left_iff.mp hrest]
      exact ⟨.accumulator register', rfl, rfl⟩
  | indexedIndirect opening value comma register closing =>
      obtain ⟨opening', rest, rfl, -, hrest⟩ := exists_of_matches_cons h
      obtain ⟨inside, after, rfl, hinside, hafter⟩ := exists_of_forall₂_append hrest
      obtain ⟨value', rfl, hvalue⟩ := value.rederive hinside
      obtain ⟨comma', indexed, rfl, -, hindexed⟩ := exists_of_matches_cons hafter
      obtain ⟨register', closed, rfl, hclosed⟩ := register.rederive hindexed
      obtain ⟨closing', last, rfl, -, hlast⟩ := exists_of_matches_cons hclosed
      rw [List.forall₂_nil_left_iff.mp hlast]
      exact ⟨.indexedIndirect opening' value' comma' register' closing', rfl,
        congrArg OperandSyntax.indexedIndirect hvalue⟩
  | indirect opening value closing =>
      obtain ⟨opening', rest, rfl, -, hrest⟩ := exists_of_matches_cons h
      obtain ⟨inside, after, rfl, hinside, hafter⟩ := exists_of_forall₂_append hrest
      obtain ⟨value', rfl, hvalue⟩ := value.rederive hinside
      obtain ⟨closing', last, rfl, -, hlast⟩ := exists_of_matches_cons hafter
      rw [List.forall₂_nil_left_iff.mp hlast]
      exact ⟨.indirect opening' value' closing', rfl, congrArg OperandSyntax.indirect hvalue⟩
  | indirectIndexed opening value closing comma register =>
      obtain ⟨opening', rest, rfl, -, hrest⟩ := exists_of_matches_cons h
      obtain ⟨inside, after, rfl, hinside, hafter⟩ := exists_of_forall₂_append hrest
      obtain ⟨value', rfl, hvalue⟩ := value.rederive hinside
      obtain ⟨closing', closed, rfl, -, hclosed⟩ := exists_of_matches_cons hafter
      obtain ⟨comma', indexed, rfl, -, hindexed⟩ := exists_of_matches_cons hclosed
      obtain ⟨register', last, rfl, hlast⟩ := register.rederive hindexed
      rw [List.forall₂_nil_left_iff.mp hlast]
      exact ⟨.indirectIndexed opening' value' closing' comma' register', rfl,
        congrArg OperandSyntax.indirectIndexed hvalue⟩
  | direct value proper =>
      obtain ⟨value', rfl, hvalue⟩ := value.rederive h
      refine ⟨.direct value' (fun a ha => ?_), rfl, congrArg (OperandSyntax.direct · none) hvalue⟩
      -- were it the accumulator here, it would be so there
      have hmatch : List.Forall₂ (Token.Matches R) value.tokens [a.token] := ha ▸ h
      obtain ⟨t, rest, ht, hrest, htokens⟩ := List.forall₂_cons_right_iff.mp hmatch
      rw [List.forall₂_nil_right_iff.mp hrest] at htokens
      refine proper ⟨a.name, t.position, a.spells⟩ ?_
      obtain ⟨kind, position⟩ := t
      obtain rfl : Token.Kind.identifier a.name = kind := ht.kind
      exact htokens
  | indexed value comma index register =>
      obtain ⟨inside, after, rfl, hinside, hafter⟩ := exists_of_forall₂_append h
      obtain ⟨value', rfl, hvalue⟩ := value.rederive hinside
      obtain ⟨comma', indexed, rfl, -, hindexed⟩ := exists_of_matches_cons hafter
      obtain ⟨register', last, rfl, hlast⟩ := register.rederive hindexed
      rw [List.forall₂_nil_left_iff.mp hlast]
      exact ⟨.indexed value' comma' index register', rfl,
        congrArg (OperandSyntax.direct · (some index)) hvalue⟩

theorem Grammar.Argument.rederive (a : Argument) {tokens : List Token}
    (h : List.Forall₂ (Token.Matches R) a.tokens tokens) :
    ∃ a' : Argument, a'.tokens = tokens ∧ a'.form = a.form := by
  cases a with
  | text content position =>
      obtain ⟨position', rest, rfl, -, hrest⟩ := exists_of_matches_cons h
      rw [List.forall₂_nil_left_iff.mp hrest]
      exact ⟨.text content position', rfl, rfl⟩
  | value e =>
      obtain ⟨e', rfl, he⟩ := e.rederive h
      exact ⟨.value e', rfl, congrArg DirectiveArgument.value he⟩

theorem Grammar.Arguments.rederive (args : Arguments) {tokens : List Token}
    (h : List.Forall₂ (Token.Matches R) args.tokens tokens) :
    ∃ args' : Arguments, args'.tokens = tokens ∧ args'.forms = args.forms := by
  have hothers : ∀ (others : List (Position × Argument)) {tokens : List Token},
      List.Forall₂ (Token.Matches R)
        (others.flatMap (fun other => ⟨.comma, other.1⟩ :: other.2.tokens)) tokens →
      ∃ others' : List (Position × Argument),
        others'.flatMap (fun other => ⟨.comma, other.1⟩ :: other.2.tokens) = tokens ∧
        others'.map (fun other => other.2.form) = others.map (fun other => other.2.form) := by
    intro others
    induction others with
    | nil =>
        intro tokens h
        rw [List.forall₂_nil_left_iff.mp h]
        exact ⟨[], rfl, rfl⟩
    | cons other others ih =>
        intro tokens h
        obtain ⟨first, second, rfl, hfirst, hsecond⟩ := exists_of_forall₂_append h
        obtain ⟨comma, rest, rfl, -, hrest⟩ := exists_of_matches_cons hfirst
        obtain ⟨a, rfl, ha⟩ := other.2.rederive hrest
        obtain ⟨others', rfl, hforms⟩ := ih hsecond
        refine ⟨(comma, a) :: others', rfl, ?_⟩
        rw [List.map_cons, List.map_cons, ha, hforms]
  obtain ⟨first, second, rfl, hfirst, hsecond⟩ := exists_of_forall₂_append h
  obtain ⟨a, rfl, ha⟩ := args.first.rederive hfirst
  obtain ⟨others, rfl, hforms⟩ := hothers args.others hsecond
  refine ⟨⟨a, others⟩, rfl, ?_⟩
  rw [Arguments.forms, Arguments.forms, ha, hforms]

-- ── Lines ───────────────────────────────────────────────────────────────────

/-- What may be left out is derived again where it is there. -/
theorem Grammar.rederive_optional {α β : Type} {derived : α → List Token} {form : α → β}
    (hrederive : ∀ (a : α) {tokens : List Token}, List.Forall₂ (Token.Matches R) (derived a) tokens →
      ∃ a', derived a' = tokens ∧ form a' = form a) (x : Option α) {tokens : List Token}
    (h : List.Forall₂ (Token.Matches R) (x.elim [] derived) tokens) :
    ∃ x' : Option α, x'.elim [] derived = tokens ∧ x'.map form = x.map form := by
  cases x with
  | none =>
      rw [List.forall₂_nil_left_iff.mp h]
      exact ⟨none, rfl, rfl⟩
  | some a =>
      obtain ⟨a', htokens, hform⟩ := hrederive a h
      exact ⟨some a', htokens, congrArg some hform⟩

theorem Grammar.Phrase.rederive (p : Phrase) {tokens : List Token}
    (h : List.Forall₂ (Token.Matches R) (p.first :: p.others) tokens) :
    ∃ p' : Phrase, p'.first :: p'.others = tokens ∧ p.statement.Matches R p'.statement := by
  cases p with
  | directive d position args =>
      obtain ⟨position', rest, rfl, hposition, hrest⟩ := exists_of_matches_cons h
      obtain ⟨args', rfl, hforms⟩ := rederive_optional Arguments.rederive args hrest
      have hgiven : ∀ x : Option Arguments,
          x.elim [] Arguments.forms = (x.map Arguments.forms).getD [] := by
        intro x
        cases x <;> rfl
      refine ⟨.directive d position' args', rfl, congrArg (Statement.Body.directive d) ?_, hposition⟩
      rw [hgiven, hgiven, hforms]
  | assignment name position equals value =>
      obtain ⟨position', rest, rfl, hposition, hrest⟩ := exists_of_matches_cons h
      obtain ⟨equals', after, rfl, -, hafter⟩ := exists_of_matches_cons hrest
      obtain ⟨value', rfl, hvalue⟩ := value.rederive hafter
      exact ⟨.assignment name position' equals' value', rfl,
        congrArg (Statement.Body.assignment name) hvalue, hposition⟩
  | instruction m word spells position operand =>
      obtain ⟨position', rest, rfl, hposition, hrest⟩ := exists_of_matches_cons h
      obtain ⟨operand', rfl, hform⟩ := rederive_optional OperandForm.rederive operand hrest
      exact ⟨.instruction m word spells position' operand', rfl,
        congrArg (Statement.Body.instruction m) hform, hposition⟩

theorem Grammar.Label.rederive_all (labels : List Label) {tokens : List Token}
    (h : List.Forall₂ (Token.Matches R) (labels.map Label.token) tokens) :
    ∃ labels' : List Label, labels'.map Label.token = tokens ∧
      List.Forall₂ (Statement.Matches R) (labels.map Label.statement) (labels'.map Label.statement) := by
  induction labels generalizing tokens with
  | nil =>
      rw [List.forall₂_nil_left_iff.mp h]
      exact ⟨[], rfl, .nil⟩
  | cons label labels ih =>
      obtain ⟨position, rest, rfl, hposition, hrest⟩ := exists_of_matches_cons h
      obtain ⟨labels', rfl, hlabels⟩ := ih hrest
      exact ⟨⟨label.name, position⟩ :: labels', rfl, .cons ⟨rfl, hposition⟩ hlabels⟩

/-- Tokens that match those of a derivation have one too, with statements that match. -/
theorem Grammar.Line.rederive (line : Grammar.Line) {tokens : List Token}
    (h : List.Forall₂ (Token.Matches R) line.tokens tokens) :
    ∃ line' : Grammar.Line, line'.tokens = tokens ∧
      List.Forall₂ (Statement.Matches R) line.statements line'.statements := by
  obtain ⟨labels, phrase⟩ := line
  obtain ⟨first, second, rfl, hfirst, hsecond⟩ := exists_of_forall₂_append h
  obtain ⟨labels', rfl, hlabels⟩ := Label.rederive_all labels hfirst
  cases phrase with
  | none =>
      rw [List.forall₂_nil_left_iff.mp hsecond]
      exact ⟨⟨labels', none⟩, rfl, List.rel_append hlabels .nil⟩
  | some p =>
      obtain ⟨p', rfl, hp⟩ := p.rederive hsecond
      exact ⟨⟨labels', some p'⟩, rfl, List.rel_append hlabels (.cons hp .nil)⟩

-- ── Texts ───────────────────────────────────────────────────────────────────

theorem splitOnP_matches {tokens tokens' : List Token}
    (h : List.Forall₂ (Token.Matches R) tokens tokens') :
    List.Forall₂ (List.Forall₂ (Token.Matches R))
      (tokens.splitOnP (fun t => t.kind = .newline)) (tokens'.splitOnP (fun t => t.kind = .newline)) := by
  induction h with
  | nil => exact .cons .nil .nil
  | @cons t t' rest rest' ht hrest ih =>
      rw [List.splitOnP_cons_eq_if_modifyHead, List.splitOnP_cons_eq_if_modifyHead, ht.kind]
      split
      · exact .cons .nil ih
      · generalize rest.splitOnP _ = lines at ih ⊢
        generalize rest'.splitOnP _ = lines' at ih ⊢
        cases ih with
        | nil => exact .nil
        | cons hline hlines => exact .cons (.cons ht hline) hlines

theorem rederive_lines {lines : List Grammar.Line} {split : List (List Token)}
    (h : List.Forall₂ (List.Forall₂ (Token.Matches R)) (lines.map Grammar.Line.tokens) split) :
    ∃ lines' : List Grammar.Line, lines'.map Grammar.Line.tokens = split ∧
      List.Forall₂ (Statement.Matches R) (lines.flatMap Grammar.Line.statements)
        (lines'.flatMap Grammar.Line.statements) := by
  induction lines generalizing split with
  | nil =>
      rw [List.forall₂_nil_left_iff.mp h]
      exact ⟨[], rfl, .nil⟩
  | cons line lines ih =>
      obtain ⟨tokens, split', hline, hlines, rfl⟩ := List.forall₂_cons_left_iff.mp h
      obtain ⟨line', rfl, hstatements⟩ := line.rederive hline
      obtain ⟨lines', rfl, hothers⟩ := ih hlines
      exact ⟨line' :: lines', rfl, List.rel_append hstatements hothers⟩

/-- The statements of a stream of tokens: what the derivations of its lines say. -/
theorem parseLines_lines_iff {stream : TokenStream} {statements : List Statement} :
    parseLines stream.lines = .ok statements ↔
      ∃ lines : List Grammar.Line,
        lines.map Grammar.Line.tokens = stream.tokens.splitOnP (fun t => t.kind = .newline) ∧
        lines.flatMap Grammar.Line.statements = statements := by
  rw [← map_tokens_lines]
  exact parseLines_eq_ok_iff

/-- Streams with matching tokens have matching statements. -/
theorem parseLines_of_matches {stream stream' : TokenStream} {statements : List Statement}
    (h : List.Forall₂ (Token.Matches R) stream.tokens stream'.tokens)
    (hparse : parseLines stream.lines = .ok statements) :
    ∃ statements', parseLines stream'.lines = .ok statements' ∧
      List.Forall₂ (Statement.Matches R) statements statements' := by
  obtain ⟨lines, htokens, rfl⟩ := parseLines_lines_iff.mp hparse
  have hsplit := splitOnP_matches h
  rw [← htokens] at hsplit
  obtain ⟨lines', htokens', hstatements⟩ := rederive_lines hsplit
  exact ⟨_, parseLines_lines_iff.mpr ⟨lines', htokens', rfl⟩, hstatements⟩

end Asm6502.Source
