import Asm6502.Source.Printer
import Asm6502.Proofs.Exactness
import Asm6502.Proofs.Rederivation
import Asm6502.Proofs.Spelling

/-!
# What is printed is read back

A statement that can be written has a derivation, and the text that is written for it is cut into the
tokens of that derivation, whatever follows on the line or after it. So the parser, which reads back every
derivation, reads the statement back.

The induction is on operands. A difference from zero is written in two ways, `0-x` on its own and `-x`
inside a sum or a byte part; both have derivations that stand for the same operand.

* `Prints`: a text is cut into given tokens, if nothing prolongs it.
* `exists_unary`, `exists_expression`, `exists_operandForm`, …: derivations of what is printed.
* `parse_render`: printing, then parsing.
-/

namespace Asm6502.Source

open Grammar

-- ── Printed tokens ──────────────────────────────────────────────────────────

/-- A text on one line is cut into these tokens wherever it stands, if nothing prolongs a name at its
    end. -/
structure Prints (text : String) (tokens : List Token) : Prop where
  plain : ∀ t ∈ tokens, t.kind ≠ .newline
  lexed : ∀ rest, Stops prolongsName rest → Lexed text.toList rest (tokens.map (·.kind))

/-- A text that is a token. -/
theorem Spelled.prints {kind : Token.Kind} {text : String} {follow : Char → Bool}
    (h : Spelled kind text.toList follow) (hkind : kind ≠ .newline) (p : Position) :
    Prints text [⟨kind, p⟩] where
  plain := List.forall_mem_singleton.mpr hkind
  lexed _ hrest := Lexed.token h (h.stops hrest)

/-- A punctuation mark in front of a text. -/
theorem Prints.mark {c : Char} {kind : Token.Kind} {text : String} {tokens : List Token}
    (h : Prints text tokens) (hc : Token.Kind.ofPunctuation? c = some kind) (p : Position) :
    Prints (String.ofList [c] ++ text) (⟨kind, p⟩ :: tokens) where
  plain := List.forall_mem_cons.mpr ⟨(not_prolongs_of_ofPunctuation? hc).1, h.plain⟩
  lexed rest hrest := by
    rw [String.toList_append, String.toList_ofList]
    exact (lexed_mark hc _).append (h.lexed rest hrest)

/-- A punctuation mark between two texts. -/
theorem Prints.joined {c : Char} {kind : Token.Kind} {text more : String} {tokens later : List Token}
    (h : Prints text tokens) (h' : Prints more later) (hc : Token.Kind.ofPunctuation? c = some kind)
    (p : Position) : Prints (text ++ (String.ofList [c] ++ more)) (tokens ++ ⟨kind, p⟩ :: later) where
  plain := List.forall_mem_append.mpr ⟨h.plain, (h'.mark hc p).plain⟩
  lexed rest hrest := by
    rw [String.toList_append, List.map_append]
    refine (h.lexed _ ?_).append ((h'.mark hc p).lexed rest hrest)
    rw [String.toList_append, String.toList_ofList]
    exact stops_cons (not_prolongs_of_ofPunctuation? hc).2 _

/-- A punctuation mark at the end of a text. -/
theorem Prints.closed {c : Char} {kind : Token.Kind} {text : String} {tokens : List Token}
    (h : Prints text tokens) (hc : Token.Kind.ofPunctuation? c = some kind) (p : Position) :
    Prints (text ++ String.ofList [c]) (tokens ++ [⟨kind, p⟩]) where
  plain := List.forall_mem_append.mpr
    ⟨h.plain, List.forall_mem_singleton.mpr (not_prolongs_of_ofPunctuation? hc).1⟩
  lexed rest _ := by
    rw [String.toList_append, String.toList_ofList, List.map_append]
    exact (h.lexed _ (stops_cons (not_prolongs_of_ofPunctuation? hc).2 _)).append (lexed_mark hc _)

/-- A blank between two texts. -/
theorem Prints.spaced {text more : String} {tokens later : List Token} (h : Prints text tokens)
    (h' : Prints more later) : Prints (text ++ " " ++ more) (tokens ++ later) where
  plain := List.forall_mem_append.mpr ⟨h.plain, h'.plain⟩
  lexed rest hrest := by
    rw [String.append_assoc, String.toList_append, String.toList_append, List.map_append]
    have hmore := (lexed_blank (c := ' ') rfl _).append (h'.lexed rest hrest)
    exact (h.lexed _ (stops_cons (by decide) _)).append hmore

theorem exists_of_isName {s : String} (h : isName s = true) :
    ∃ c tail, s.toList = c :: tail ∧ isNameStart c = true ∧ ∀ x ∈ tail, isNameChar x = true := by
  unfold isName at h
  split at h
  · cases h
  · rename_i c tail hs
    obtain ⟨hc, htail⟩ := Bool.and_eq_true_iff.mp h
    exact ⟨c, tail, hs, hc, List.all_eq_true.mp htail⟩

theorem spelled_name {s : String} (h : isName s = true) :
    Spelled (.identifier s) s.toList prolongsName := by
  obtain ⟨c, tail, hs, hc, htail⟩ := exists_of_isName h
  have hspelled := Spelled.name hc htail
  rwa [← hs, String.ofList_toList] at hspelled

theorem exists_of_isLiteral {x : Number} (h : isLiteral x = true) :
    ∃ n, n < Number.exactLimit ∧ x = .ofNat n := by
  unfold isLiteral at h
  split at h
  · rename_i n hn
    obtain ⟨hnonneg, hlimit⟩ := of_decide_eq_true h
    refine ⟨n.toNat, hlimit, ?_⟩
    rw [Number.ofNat_eq_ofInt, Int.toNat_of_nonneg hnonneg]
    exact Number.eq_ofInt_of_toInt? hn
  · cases h

theorem spelled_literal {x : Number} (h : isLiteral x = true) :
    Spelled (.number x) x.text.toList (isDigitIn 10) := by
  obtain ⟨n, hn, rfl⟩ := exists_of_isLiteral h
  obtain ⟨hdigits, hvalue⟩ := toDigits_read (show 1 < 10 by decide) (by decide) n
  obtain ⟨c, digits, hcons⟩ := List.exists_cons_of_ne_nil (Nat.toDigits_ne_nil (n := n) (b := 10))
  rw [Number.text_ofNat (Nat.le_of_lt hn), String.toList_ofList,
    ← ofDigits_of_le hvalue (Nat.le_of_lt hn), hcons]
  rw [hcons] at hdigits
  obtain ⟨hc, hdigits⟩ := List.forall_mem_cons.mp hdigits
  exact .decimal hc hdigits

-- ── Expressions ─────────────────────────────────────────────────────────────

theorem exists_unary {o : Operand} (h : isUnary o = true) :
    ∃ u : Unary, u.operand = o ∧ Prints (unaryText o) u.tokens := by
  induction o with
  | number x => exact ⟨.number x .first, rfl, (spelled_literal h).prints (by simp) .first⟩
  | name s => exact ⟨.name s .first, rfl, (spelled_name h).prints (by simp) .first⟩
  | label s => cases h
  | here => exact ⟨.here .first, rfl, (Spelled.punctuation rfl).prints (by simp) .first⟩
  | low o ih =>
      obtain ⟨u, rfl, hu⟩ := ih h
      exact ⟨.low .first u, rfl, hu.mark rfl .first⟩
  | high o ih =>
      obtain ⟨u, rfl, hu⟩ := ih h
      exact ⟨.high .first u, rfl, hu.mark rfl .first⟩
  | add l r _ _ => cases h
  | sub l r _ ih =>
      cases l with
      | number x =>
          obtain ⟨hx, hr⟩ := Bool.and_eq_true_iff.mp h
          obtain ⟨u, rfl, hu⟩ := ih hr
          rw [beq_iff_eq.mp hx]
          exact ⟨.negative .first u, rfl, hu.mark rfl .first⟩
      | _ => cases h

namespace Grammar.Expression

/-- An expression with one more part. -/
def extend (e : Expression) (sign : Sign) (part : Unary) : Expression :=
  ⟨e.first, e.terms ++ [⟨sign, .first, part⟩]⟩

theorem operand_extend (e : Expression) (sign : Sign) (part : Unary) :
    (e.extend sign part).operand = sign.apply e.operand part.operand := by
  rw [extend, operand, List.foldl_append]
  rfl

theorem tokens_extend (e : Expression) (sign : Sign) (part : Unary) :
    (e.extend sign part).tokens = e.tokens ++ ⟨sign.kind, .first⟩ :: part.tokens := by
  rw [extend, tokens, tokens, List.flatMap_append, List.append_assoc, List.flatMap_singleton]
  rfl

end Grammar.Expression

theorem exists_expression {o : Operand} (h : isExpression o = true) :
    ∃ e : Expression, e.operand = o ∧ Prints (expressionText o) e.tokens := by
  have hunary : ∀ {o : Operand}, isUnary o = true → expressionText o = unaryText o →
      ∃ e : Expression, e.operand = o ∧ Prints (expressionText o) e.tokens := by
    intro o h htext
    obtain ⟨u, hoperand, hu⟩ := exists_unary h
    refine ⟨⟨u, []⟩, hoperand, ?_⟩
    rw [htext, Expression.tokens, List.flatMap_nil, List.append_nil]
    exact hu
  induction o with
  | add l r ih _ =>
      obtain ⟨hl, hr⟩ := Bool.and_eq_true_iff.mp h
      obtain ⟨e, rfl, he⟩ := ih hl
      obtain ⟨u, rfl, hu⟩ := exists_unary hr
      refine ⟨e.extend .plus u, e.operand_extend .plus u, ?_⟩
      rw [Expression.tokens_extend, expressionText, String.append_assoc]
      exact he.joined hu (c := '+') rfl .first
  | sub l r ih _ =>
      obtain ⟨hl, hr⟩ := Bool.and_eq_true_iff.mp h
      obtain ⟨e, rfl, he⟩ := ih hl
      obtain ⟨u, rfl, hu⟩ := exists_unary hr
      refine ⟨e.extend .minus u, e.operand_extend .minus u, ?_⟩
      rw [Expression.tokens_extend, expressionText, String.append_assoc]
      exact he.joined hu (c := '-') rfl .first
  | number x => exact hunary h rfl
  | name s => exact hunary h rfl
  | label s => exact hunary h rfl
  | here => exact hunary h rfl
  | low o _ => exact hunary h rfl
  | high o _ => exact hunary h rfl

-- ── Operands and arguments ──────────────────────────────────────────────────

/-- A name alone. -/
theorem Grammar.Expression.eq_name {e : Expression} {name : String} {p : Position}
    (h : e.tokens = [⟨.identifier name, p⟩]) : e.operand = .name name := by
  have he : e = ⟨.name name p, []⟩ := Expression.tokens_injective h
  rw [he]
  rfl

theorem prints_letter {c : Char} (hc : isNameStart c = true) (p : Position) :
    Prints (String.ofList [c]) [⟨.identifier (String.ofList [c]), p⟩] := by
  have hspelled : Spelled (.identifier (String.ofList [c])) (String.ofList [c]).toList prolongsName := by
    rw [String.toList_ofList]
    exact .name hc (by simp)
  exact hspelled.prints (by simp) p

theorem prints_index (i : Index) (p : Position) : Prints i.text [⟨.identifier i.text, p⟩] := by
  cases i with
  | x => exact prints_letter (c := 'X') rfl p
  | y => exact prints_letter (c := 'Y') rfl p

theorem upperCase_index (i : Index) : upperCase i.text = i.text := by
  cases i <;> rfl

/-- What can be written has an expression; a name alone is not that of the accumulator. -/
theorem OperandSyntax.isWritable_direct {v : Operand}
    (h : (OperandSyntax.direct v none).isWritable = true) :
    isExpression v = true ∧ ∀ s, v = .name s → upperCase s ≠ "A" := by
  unfold OperandSyntax.isWritable at h
  cases v with
  | name s =>
      obtain ⟨hname, hupper⟩ := Bool.and_eq_true_iff.mp h
      refine ⟨hname, fun s' hs => ?_⟩
      rw [← Operand.name.inj hs]
      exact bne_iff_ne.mp hupper
  | _ => exact ⟨h, fun s hs => by cases hs⟩

theorem exists_operandForm {x : OperandSyntax} (h : x.isWritable = true) :
    ∃ form : OperandForm, form.form = x ∧ Prints x.text form.tokens := by
  cases x with
  | accumulator =>
      exact ⟨.accumulator ⟨"A", .first, rfl⟩, rfl, prints_letter (c := 'A') rfl .first⟩
  | immediate v =>
      obtain ⟨e, rfl, he⟩ := exists_expression h
      exact ⟨.immediate .first e, rfl, he.mark rfl .first⟩
  | direct v index =>
      cases index with
      | none =>
          obtain ⟨hv, hproper⟩ := OperandSyntax.isWritable_direct h
          obtain ⟨e, rfl, he⟩ := exists_expression hv
          refine ⟨.direct e (fun a ha => ?_), rfl, he⟩
          exact hproper a.name (Expression.eq_name ha) a.spells
      | some i =>
          have hv : isExpression v = true := by cases v <;> exact h
          obtain ⟨e, rfl, he⟩ := exists_expression hv
          refine ⟨.indexed e .first i ⟨i.text, .first, upperCase_index i⟩, rfl, ?_⟩
          rw [OperandSyntax.text, String.append_assoc]
          exact he.joined (prints_index i .first) (c := ',') rfl .first
  | indirect v =>
      obtain ⟨e, rfl, he⟩ := exists_expression h
      refine ⟨.indirect .first e .first, rfl, ?_⟩
      rw [OperandSyntax.text, String.append_assoc]
      exact (he.closed (c := ')') rfl .first).mark rfl .first
  | indexedIndirect v =>
      obtain ⟨e, rfl, he⟩ := exists_expression h
      refine ⟨.indexedIndirect .first e .first ⟨"X", .first, rfl⟩ .first, rfl, ?_⟩
      rw [OperandSyntax.text, String.append_assoc]
      have hindex := (prints_index .x .first).closed (c := ')') rfl .first
      exact (he.joined hindex (c := ',') rfl .first).mark rfl .first
  | indirectIndexed v =>
      obtain ⟨e, rfl, he⟩ := exists_expression h
      refine ⟨.indirectIndexed .first e .first .first ⟨"Y", .first, rfl⟩, rfl, ?_⟩
      rw [OperandSyntax.text, String.append_assoc]
      have hindex := (prints_index .y .first).mark (c := ',') rfl .first
      exact (he.joined hindex (c := ')') rfl .first).mark rfl .first

theorem exists_argument {a : DirectiveArgument} (h : a.isWritable = true) :
    ∃ arg : Argument, arg.form = a ∧ Prints a.written arg.tokens := by
  cases a with
  | text content =>
      have hcontent : ∀ c ∈ content.toList, c ≠ '"' ∧ c ≠ '\n' := by
        intro c hc
        obtain ⟨hquote, hline⟩ := Bool.and_eq_true_iff.mp (List.all_eq_true.mp h c hc)
        exact ⟨bne_iff_ne.mp hquote, bne_iff_ne.mp hline⟩
      have hspelled := Spelled.string hcontent
      have hwritten : (DirectiveArgument.text content).written.toList =
          '"' :: (content.toList ++ ['"']) := by
        rw [DirectiveArgument.written, String.toList_append, String.toList_append]
        rfl
      rw [String.ofList_toList, ← hwritten] at hspelled
      exact ⟨.text content .first, rfl, hspelled.prints (by simp) .first⟩
  | value v =>
      obtain ⟨e, rfl, he⟩ := exists_expression h
      exact ⟨.value e, rfl, he⟩

theorem exists_arguments {a : DirectiveArgument} {others : List DirectiveArgument}
    (h : ∀ b ∈ a :: others, b.isWritable = true) :
    ∃ args : Arguments, args.forms = a :: others ∧
      Prints (",".intercalate ((a :: others).map (·.written))) args.tokens := by
  induction others generalizing a with
  | nil =>
      obtain ⟨arg, rfl, harg⟩ := exists_argument (h a (List.mem_singleton_self a))
      refine ⟨⟨arg, []⟩, rfl, ?_⟩
      rw [Arguments.tokens, List.flatMap_nil, List.append_nil]
      exact harg
  | cons b others ih =>
      obtain ⟨ha, hothers⟩ := List.forall_mem_cons.mp h
      obtain ⟨arg, rfl, harg⟩ := exists_argument ha
      obtain ⟨args, hforms, hargs⟩ := ih hothers
      refine ⟨⟨arg, (.first, args.first) :: args.others⟩, ?_, ?_⟩
      · exact congrArg (arg.form :: ·) hforms
      · rw [List.map_cons, List.map_cons, String.intercalate_cons_cons, String.append_assoc]
        exact harg.joined hargs (c := ',') rfl .first

-- ── Statements ──────────────────────────────────────────────────────────────

theorem isName_text (m : Mnemonic) : isName m.text = true := by
  have hall : ∀ m ∈ Mnemonic.all, isName m.text = true := by decide +kernel
  exact hall m m.mem_all

theorem upperCase_text (m : Mnemonic) : upperCase m.text = m.text := by
  have hall : ∀ m ∈ Mnemonic.all, upperCase m.text = m.text := by decide +kernel
  exact hall m m.mem_all

theorem prints_directive (d : Directive) (p : Position) : Prints d.name [⟨.directive d.name, p⟩] := by
  have hspelled : ∀ (word : List Char), (∀ c ∈ word, isNameChar c = true) →
      d.name = String.ofList ('.' :: word) → upperCase d.name = d.name →
      Prints d.name [⟨.directive d.name, p⟩] := by
    intro word hword hname hupper
    have hdirective := Spelled.directive hword
    rw [← hname, hupper, ← String.toList_ofList (l := '.' :: word), ← hname] at hdirective
    exact hdirective.prints (by simp) p
  have hletters : d.name.toList.tail.all isNameChar = true := by cases d <;> rfl
  exact hspelled d.name.toList.tail (List.all_eq_true.mp hletters) (by cases d <;> rfl) (by cases d <;> rfl)

theorem exists_line {body : Statement.Body} (h : body.isWritable = true) :
    ∃ line : Grammar.Line, line.statements.map (·.body) = [body] ∧ Prints body.text line.tokens := by
  cases body with
  | label name =>
      obtain ⟨c, tail, hname, hc, htail⟩ := exists_of_isName h
      have hspelled := Spelled.label hc htail
      have htext : (Statement.Body.label name).text.toList = name.toList ++ [':'] := String.toList_append
      rw [← hname, String.ofList_toList, ← List.cons_append, ← hname, ← htext] at hspelled
      exact ⟨⟨[⟨name, .first⟩], none⟩, rfl, hspelled.prints (by simp) .first⟩
  | assignment name value =>
      obtain ⟨hname, hvalue⟩ := Bool.and_eq_true_iff.mp h
      obtain ⟨e, rfl, he⟩ := exists_expression hvalue
      refine ⟨⟨[], some (.assignment name .first .first e)⟩, rfl, ?_⟩
      rw [Statement.Body.text, String.append_assoc]
      exact ((spelled_name hname).prints (by simp) .first).joined he (c := '=') rfl .first
  | instruction m operand =>
      have hm := (spelled_name (isName_text m)).prints (by simp) .first
      cases operand with
      | none => exact ⟨⟨[], some (.instruction m m.text (upperCase_text m) .first none)⟩, rfl, hm⟩
      | some x =>
          obtain ⟨form, rfl, hform⟩ := exists_operandForm h
          exact ⟨⟨[], some (.instruction m m.text (upperCase_text m) .first (some form))⟩, rfl,
            hm.spaced hform⟩
  | directive d args =>
      cases args with
      | nil => exact ⟨⟨[], some (.directive d .first none)⟩, rfl, prints_directive d .first⟩
      | cons a others =>
          obtain ⟨args, hforms, hargs⟩ := exists_arguments (List.all_eq_true.mp h)
          refine ⟨⟨[], some (.directive d .first (some args))⟩, ?_, ?_⟩
          · exact congrArg (fun forms => [Statement.Body.directive d forms]) hforms
          · exact (prints_directive d .first).spaced hargs

/-- The line of a statement says it. -/
theorem says_text {body : Statement.Body} (h : body.isWritable = true) : Says body.text.toList body := by
  obtain ⟨line, hbody, hprints⟩ := exists_line h
  refine ⟨line.tokens.map (·.kind), ?_, ?_, ?_⟩
  · intro kind hkind
    obtain ⟨t, ht, rfl⟩ := List.mem_map.mp hkind
    exact hprints.plain t ht
  · intro rest hrest
    exact hprints.lexed rest (stops_of_lineEnds (by decide) hrest)
  · intro stop tokens htokens
    obtain ⟨line', rfl, hsame⟩ := line.rederive (matches_of_kinds htokens)
    obtain ⟨s, hs, rfl⟩ := List.map_eq_singleton_iff.mp hbody
    rw [hs] at hsame
    obtain ⟨s', others, hmatches, hothers, hline⟩ := List.forall₂_cons_left_iff.mp hsame
    obtain rfl := List.forall₂_nil_left_iff.mp hothers
    refine ⟨s'.position, ?_⟩
    rw [lineStatements_tokens, hline, ← hmatches.body]

/-- Statements that can be written are read back from their text. -/
theorem parse_render {bodies : List Statement.Body} (h : ∀ body ∈ bodies, body.isWritable = true) :
    ∃ statements, parse (render bodies) = .ok statements ∧ statements.map (·.body) = bodies := by
  refine parse_lines ?_
  rw [List.forall₂_map_left_iff, List.forall₂_same]
  intro body hbody
  exact says_text (h body hbody)

/-- Names in lower case, a difference from zero at the left of a sum and inside a byte part, and a text
    with a semicolon. -/
def writtenProgram : List Statement.Body :=
  [.label "loop",
    .instruction .lda (some (.indirectIndexed (.add (.sub (.number 0) .here) (.number 9007199254740991)))),
    .instruction .asl (some .accumulator),
    .instruction .jmp (some (.direct (.low (.sub (.number 0) (.name "a"))) none)),
    .instruction .sta (some (.direct (.name "a") (some .x))),
    .assignment "x1" (.sub (.high (.name "loop")) (.low .here)),
    .directive .byte [.text "; A", .value (.number 0)],
    .directive .org []]

theorem written_program_is_read_back :
    (∀ body ∈ writtenProgram, body.isWritable = true) ∧
      ∃ statements, parse (render writtenProgram) = .ok statements ∧
        statements.map (·.body) = writtenProgram := by
  have hwritable : ∀ body ∈ writtenProgram, body.isWritable = true := by decide +kernel
  exact ⟨hwritable, parse_render hwritable⟩

end Asm6502.Source
