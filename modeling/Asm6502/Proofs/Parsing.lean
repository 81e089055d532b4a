import Asm6502.Proofs.Grammar
import Asm6502.Proofs.Scanning

/-!
# The parser and the grammar

The parser accepts exactly the texts that the grammar derives, and answers what their derivations stand
for. For each rule there are two lemmas: the parser reads back the tokens of a derivation, and what it
accepts has a derivation. As the parser is a function, the first of them shows that a derivation is known
by its tokens.

* `unary_tokens`, `expression_tokens`, …: what is derived is read.
* `unary_eq_ok`, `expression_eq_ok`, …: what is read is derived.
* `Grammar.Line.tokens_injective`: derivations are unique.
* `parse_accepts_grammar`: the three for source texts.
-/

namespace Asm6502.Source

open Grammar

-- ── Unary expressions ───────────────────────────────────────────────────────

theorem unary_tokens (stop : LineEnd) (u : Unary) (rest : List Token) :
    unary stop (u.tokens ++ rest) = .ok (u.operand, rest) := by
  induction u with
  | low _ part ih | high _ part ih | negative _ part ih =>
      rw [Unary.tokens, List.cons_append, unary, ih]
      rfl
  | number _ _ | name _ _ | here _ => rfl

theorem unary_eq_ok {stop : LineEnd} {tokens left : List Token} {o : Operand}
    (h : unary stop tokens = .ok (o, left)) : ∃ u : Unary, tokens = u.tokens ++ left ∧ u.operand = o := by
  induction tokens generalizing o left with
  | nil => cases h
  | cons t rest ih =>
      obtain ⟨kind, position⟩ := t
      have hsigned : ∀ {make : Operand → Operand},
          (unary stop rest >>= fun read => pure (make read.1, read.2)) = .ok (o, left) →
            ∃ u : Unary, rest = u.tokens ++ left ∧ make u.operand = o := by
        intro make h
        obtain ⟨⟨part, after⟩, hpart, hmade⟩ := Check.bind_eq_ok h
        obtain ⟨rfl, rfl⟩ := Prod.mk.inj (Except.ok.inj hmade)
        obtain ⟨u, htokens, rfl⟩ := ih hpart
        exact ⟨u, htokens, rfl⟩
      cases kind with
      | less =>
          obtain ⟨u, rfl, hoperand⟩ := hsigned h
          exact ⟨.low position u, rfl, hoperand⟩
      | greater =>
          obtain ⟨u, rfl, hoperand⟩ := hsigned h
          exact ⟨.high position u, rfl, hoperand⟩
      | minus =>
          obtain ⟨u, rfl, hoperand⟩ := hsigned h
          exact ⟨.negative position u, rfl, hoperand⟩
      | number value =>
          obtain ⟨rfl, rfl⟩ := Prod.mk.inj (Except.ok.inj h)
          exact ⟨.number value position, rfl, rfl⟩
      | identifier word =>
          obtain ⟨rfl, rfl⟩ := Prod.mk.inj (Except.ok.inj h)
          exact ⟨.name word position, rfl, rfl⟩
      | star =>
          obtain ⟨rfl, rfl⟩ := Prod.mk.inj (Except.ok.inj h)
          exact ⟨.here position, rfl, rfl⟩
      | _ => cases h

/-- Where a unary expression ends is known from its tokens. -/
theorem Grammar.Unary.append_inj {u u' : Unary} {rest rest' : List Token}
    (h : u.tokens ++ rest = u'.tokens ++ rest') : u.tokens = u'.tokens ∧ rest = rest' := by
  have hread := unary_tokens ⟨"", .first⟩ u rest
  rw [h, unary_tokens] at hread
  obtain rfl : rest' = rest := (Prod.mk.inj (Except.ok.inj hread)).2
  exact ⟨List.append_cancel_right h, rfl⟩

theorem Grammar.Unary.tokens_injective {u u' : Unary} (h : u.tokens = u'.tokens) : u = u' := by
  induction u generalizing u' with
  | low sign part ih =>
      cases u' with
      | low sign' part' =>
          obtain ⟨hsign, hpart⟩ := List.cons.inj h
          rw [(Token.mk.inj hsign).2, ih hpart]
      | _ => exact nomatch h
  | high sign part ih =>
      cases u' with
      | high sign' part' =>
          obtain ⟨hsign, hpart⟩ := List.cons.inj h
          rw [(Token.mk.inj hsign).2, ih hpart]
      | _ => exact nomatch h
  | negative sign part ih =>
      cases u' with
      | negative sign' part' =>
          obtain ⟨hsign, hpart⟩ := List.cons.inj h
          rw [(Token.mk.inj hsign).2, ih hpart]
      | _ => exact nomatch h
  | number _ _ | name _ _ | here _ =>
      cases u' <;> cases h
      rfl

-- ── Expressions ─────────────────────────────────────────────────────────────

/-- Tokens with which a sum does not go on. -/
def EndsSum (rest : List Token) : Prop :=
  ∀ t, rest.head? = some t → t.kind ≠ .plus ∧ t.kind ≠ .minus

theorem endsSum_nil : EndsSum [] := fun _ h => nomatch h

theorem endsSum_cons {kind : Token.Kind} (h : kind ≠ .plus ∧ kind ≠ .minus) (position : Position)
    (rest : List Token) : EndsSum (⟨kind, position⟩ :: rest) := by
  intro t ht
  rw [← Option.some.inj ht]
  exact h

theorem sum_of_endsSum (stop : LineEnd) (left : Operand) {rest : List Token} (h : EndsSum rest) :
    sum stop left rest = .ok (left, rest) := by
  cases rest with
  | nil => rw [sum]
  | cons t rest =>
      obtain ⟨hplus, hminus⟩ := h t rfl
      rw [sum]
      split
      · rename_i hkind
        exact absurd hkind hplus
      · rename_i hkind
        exact absurd hkind hminus
      · rfl

/-- One more part of a sum. -/
theorem sum_term (stop : LineEnd) (left : Operand) (t : Term) (rest : List Token) :
    sum stop left (t.tokens ++ rest) = sum stop (t.sign.apply left t.part.operand) rest := by
  have hpart := unary_tokens stop t.part rest
  obtain ⟨sign, position, part⟩ := t
  cases sign with
  | plus | minus =>
      rw [Term.tokens, List.cons_append, sum]
      simp only [Sign.kind]
      split
      · rename_i right more hright
        obtain ⟨rfl, rfl⟩ := Prod.mk.inj (Except.ok.inj (hright.symm.trans hpart))
        rfl
      · rename_i fault hfault
        cases hfault.symm.trans hpart

theorem sum_terms (stop : LineEnd) (left : Operand) (terms : List Term) {rest : List Token}
    (hrest : EndsSum rest) :
    sum stop left (terms.flatMap Term.tokens ++ rest) =
      .ok (terms.foldl (fun left t => t.sign.apply left t.part.operand) left, rest) := by
  induction terms generalizing left with
  | nil => exact sum_of_endsSum stop left hrest
  | cons t terms ih => rw [List.flatMap_cons, List.append_assoc, sum_term, ih, List.foldl_cons]

theorem sum_eq_ok {stop : LineEnd} {first o : Operand} {tokens left : List Token}
    (h : sum stop first tokens = .ok (o, left)) :
    ∃ terms : List Term, tokens = terms.flatMap Term.tokens ++ left ∧
      terms.foldl (fun left t => t.sign.apply left t.part.operand) first = o ∧ EndsSum left := by
  fun_induction sum stop first tokens with
  | case1 first =>
      obtain ⟨rfl, rfl⟩ := Prod.mk.inj (Except.ok.inj h)
      exact ⟨[], rfl, rfl, endsSum_nil⟩
  | case2 first t rest hkind right more hright ih =>
      obtain ⟨part, rfl, rfl⟩ := unary_eq_ok hright
      obtain ⟨terms, rfl, hoperand, hends⟩ := ih h
      refine ⟨⟨.plus, t.position, part⟩ :: terms, ?_, hoperand, hends⟩
      rw [List.flatMap_cons, List.append_assoc, Term.tokens, List.cons_append, Sign.kind, ← hkind]
  | case3 first t rest hkind fault hfault => cases h
  | case4 first t rest hkind right more hright ih =>
      obtain ⟨part, rfl, rfl⟩ := unary_eq_ok hright
      obtain ⟨terms, rfl, hoperand, hends⟩ := ih h
      refine ⟨⟨.minus, t.position, part⟩ :: terms, ?_, hoperand, hends⟩
      rw [List.flatMap_cons, List.append_assoc, Term.tokens, List.cons_append, Sign.kind, ← hkind]
  | case5 first t rest hkind fault hfault => cases h
  | case6 first t rest hplus hminus =>
      obtain ⟨rfl, rfl⟩ := Prod.mk.inj (Except.ok.inj h)
      exact ⟨[], rfl, rfl, endsSum_cons ⟨hplus, hminus⟩ t.position rest⟩

theorem expression_tokens (stop : LineEnd) (e : Expression) {rest : List Token} (hrest : EndsSum rest) :
    expression stop (e.tokens ++ rest) = .ok (e.operand, rest) := by
  rw [expression, Expression.tokens, List.append_assoc, unary_tokens]
  exact sum_terms stop e.first.operand e.terms hrest

theorem expression_eq_ok {stop : LineEnd} {tokens left : List Token} {o : Operand}
    (h : expression stop tokens = .ok (o, left)) :
    ∃ e : Expression, tokens = e.tokens ++ left ∧ e.operand = o ∧ EndsSum left := by
  obtain ⟨⟨first, rest⟩, hfirst, hsum⟩ := Check.bind_eq_ok h
  obtain ⟨u, rfl, rfl⟩ := unary_eq_ok hfirst
  obtain ⟨terms, rfl, hoperand, hends⟩ := sum_eq_ok hsum
  exact ⟨⟨u, terms⟩, by rw [Expression.tokens, List.append_assoc], hoperand, hends⟩

theorem Grammar.Sign.kind_injective {s s' : Sign} (h : s.kind = s'.kind) : s = s' := by
  cases s with
  | plus =>
      cases s' with
      | plus => rfl
      | minus => exact nomatch h
  | minus =>
      cases s' with
      | plus => exact nomatch h
      | minus => rfl

theorem Grammar.Term.tokens_flatMap_injective {terms terms' : List Term}
    (h : terms.flatMap Term.tokens = terms'.flatMap Term.tokens) : terms = terms' := by
  induction terms generalizing terms' with
  | nil =>
      cases terms' with
      | nil => rfl
      | cons _ _ => exact nomatch h
  | cons t terms ih =>
      cases terms' with
      | nil => exact nomatch h
      | cons t' terms' =>
          rw [List.flatMap_cons, List.flatMap_cons] at h
          obtain ⟨hsign, hparts⟩ := List.cons.inj h
          obtain ⟨hpart, hrest⟩ := Unary.append_inj hparts
          obtain ⟨hkind, hposition⟩ := Token.mk.inj hsign
          have hterm : t = t' := by
            cases t
            cases t'
            exact congr (congr (congrArg Term.mk (Sign.kind_injective hkind)) hposition)
              (Unary.tokens_injective hpart)
          rw [hterm, ih hrest]

/-- Where an expression ends is known from its tokens, and its derivation as well. -/
theorem Grammar.Expression.append_inj {e e' : Expression} {rest rest' : List Token}
    (hrest : EndsSum rest) (hrest' : EndsSum rest') (h : e.tokens ++ rest = e'.tokens ++ rest') :
    e = e' ∧ rest = rest' := by
  obtain ⟨first, terms⟩ := e
  obtain ⟨first', terms'⟩ := e'
  have hread := expression_tokens ⟨"", .first⟩ ⟨first, terms⟩ hrest
  rw [h, expression_tokens _ _ hrest'] at hread
  obtain rfl : rest' = rest := (Prod.mk.inj (Except.ok.inj hread)).2
  obtain ⟨hfirst, hterms⟩ := Unary.append_inj (List.append_cancel_right h)
  obtain rfl : first = first' := Unary.tokens_injective hfirst
  obtain rfl : terms = terms' := Term.tokens_flatMap_injective hterms
  exact ⟨rfl, rfl⟩

-- ── Operands ────────────────────────────────────────────────────────────────

/-- Tokens with which an expression begins. -/
def Token.Kind.beginsExpression : Token.Kind → Bool
  | .less | .greater | .minus | .number _ | .identifier _ | .star => true
  | _ => false

theorem Grammar.Expression.tokens_eq_cons (e : Expression) :
    ∃ t rest, e.tokens = t :: rest ∧ t.kind.beginsExpression = true := by
  obtain ⟨first, terms⟩ := e
  cases first <;> exact ⟨_, _, rfl, rfl⟩

theorem isRegister_iff {register : String} {t : Token} :
    isRegister register t = true ↔ ∃ r : RegisterName register, t = r.token := by
  obtain ⟨kind, position⟩ := t
  constructor
  · intro h
    cases kind with
    | identifier name => exact ⟨⟨name, position, beq_iff_eq.mp h⟩, rfl⟩
    | _ => exact nomatch h
  · rintro ⟨⟨name, _, hspells⟩, h⟩
    rw [h]
    exact beq_iff_eq.mpr hspells

theorem isRegister_token {register : String} (r : RegisterName register) :
    isRegister register r.token = true := isRegister_iff.mpr ⟨r, rfl⟩

/-- A name is that of one register only. -/
theorem isRegister_token_of_ne {register other : String} (r : RegisterName register)
    (hne : register ≠ other) : isRegister other r.token = false := by
  refine Bool.eq_false_iff.mpr (fun h => hne ?_)
  exact r.spells.symm.trans (beq_iff_eq.mp h)

theorem endsSum_comma (p : Position) (rest : List Token) : EndsSum (⟨.comma, p⟩ :: rest) :=
  endsSum_cons ⟨by decide, by decide⟩ p rest

theorem endsSum_rightParen (p : Position) (rest : List Token) : EndsSum (⟨.rightParen, p⟩ :: rest) :=
  endsSum_cons ⟨by decide, by decide⟩ p rest

theorem expression_all (stop : LineEnd) (e : Expression) :
    expression stop e.tokens = .ok (e.operand, []) := by
  have h := expression_tokens stop e endsSum_nil
  rwa [List.append_nil] at h

/-- An operand that begins with an expression is one, with an index register or without, unless it is the
    accumulator. -/
theorem operandSyntax_eq_direct (stop : LineEnd) {t : Token} {rest : List Token}
    (ht : t.kind.beginsExpression = true) (hproper : ∀ a : RegisterName "A", t :: rest ≠ [a.token]) :
    operandSyntax stop (t :: rest) = direct stop (t :: rest) := by
  unfold operandSyntax
  split
  · rename_i heq
    rw [(List.cons.inj heq).1] at ht
    exact nomatch ht
  · rename_i heq
    rw [(List.cons.inj heq).1] at ht
    exact nomatch ht
  · rename_i t' heq
    obtain ⟨rfl, rfl⟩ := List.cons.inj heq
    rw [if_neg]
    intro h
    obtain ⟨a, ha⟩ := isRegister_iff.mp h
    exact hproper a (by rw [ha])
  · rfl

theorem operandSyntax_tokens (stop : LineEnd) (x : OperandForm) :
    operandSyntax stop x.tokens = .ok (x.form, []) := by
  cases x with
  | immediate hash value =>
      rw [OperandForm.tokens, operandSyntax, expression_all]
      rfl
  | accumulator register =>
      show (if isRegister "A" register.token = true then _ else _) = _
      rw [if_pos (isRegister_token register)]
      rfl
  | indexedIndirect opening value comma register closing =>
      show parenthesized stop (value.tokens ++ _) = _
      rw [parenthesized, expression_tokens stop value (endsSum_comma _ _)]
      show (if isRegister "X" register.token = true then _ else _) = _
      rw [if_pos (isRegister_token register)]
      rfl
  | indirect opening value closing =>
      show parenthesized stop (value.tokens ++ _) = _
      rw [parenthesized, expression_tokens stop value (endsSum_rightParen _ _)]
      rfl
  | indirectIndexed opening value closing comma register =>
      show parenthesized stop (value.tokens ++ _) = _
      rw [parenthesized, expression_tokens stop value (endsSum_rightParen _ _)]
      show (if isRegister "Y" register.token = true then _ else _) = _
      rw [if_pos (isRegister_token register)]
      rfl
  | direct value proper =>
      obtain ⟨t, rest, htokens, ht⟩ := value.tokens_eq_cons
      rw [OperandForm.tokens, htokens, operandSyntax_eq_direct stop ht (htokens ▸ proper), ← htokens, direct,
        expression_all]
      rfl
  | indexed value comma index register =>
      obtain ⟨t, rest, htokens, ht⟩ := value.tokens_eq_cons
      have hproper : ∀ a : RegisterName "A",
          t :: (rest ++ [⟨.comma, comma⟩, register.token]) ≠ [a.token] := by
        intro a h
        have hlength := congrArg List.length h
        simp at hlength
      have hdirect : operandSyntax stop (value.tokens ++ [⟨.comma, comma⟩, register.token]) =
          direct stop (value.tokens ++ [⟨.comma, comma⟩, register.token]) := by
        rw [htokens]
        exact operandSyntax_eq_direct stop ht hproper
      rw [OperandForm.tokens, hdirect, direct, expression_tokens stop value (endsSum_comma _ _)]
      have hregister := isRegister_token register
      cases index with
      | x =>
          show (if isRegister "X" register.token = true then _ else _) = _
          rw [show isRegister "X" register.token = true from hregister]
          rfl
      | y =>
          show (if isRegister "X" register.token = true then _
            else if isRegister "Y" register.token = true then _ else _) = _
          rw [isRegister_token_of_ne register (by decide),
            show isRegister "Y" register.token = true from hregister]
          rfl

theorem parenthesized_eq_ok {stop : LineEnd} {tokens : List Token} {x : OperandSyntax}
    (opening : Position) (h : parenthesized stop tokens = .ok (x, [])) :
    ∃ form : OperandForm, form.tokens = ⟨.leftParen, opening⟩ :: tokens ∧ form.form = x := by
  obtain ⟨⟨value, rest⟩, hvalue, h⟩ := Check.bind_eq_ok h
  dsimp only at h
  split at h
  · rename_i comma rest
    split at h
    · split at h
      · rename_i hregister
        split at h
        · rename_i closing left
          obtain ⟨rfl, rfl⟩ := Prod.mk.inj (Except.ok.inj h)
          obtain ⟨r, rfl⟩ := isRegister_iff.mp hregister
          obtain ⟨e, rfl, rfl, -⟩ := expression_eq_ok hvalue
          exact ⟨.indexedIndirect opening e comma r closing, rfl, rfl⟩
        · exact nomatch h
      · exact nomatch h
    · exact nomatch h
  · rename_i closing comma rest
    split at h
    · split at h
      · rename_i hregister
        obtain ⟨rfl, rfl⟩ := Prod.mk.inj (Except.ok.inj h)
        obtain ⟨r, rfl⟩ := isRegister_iff.mp hregister
        obtain ⟨e, rfl, rfl, -⟩ := expression_eq_ok hvalue
        exact ⟨.indirectIndexed opening e closing comma r, rfl, rfl⟩
      · exact nomatch h
    · exact nomatch h
  · rename_i closing left _
    obtain ⟨rfl, rfl⟩ := Prod.mk.inj (Except.ok.inj h)
    obtain ⟨e, rfl, rfl, -⟩ := expression_eq_ok hvalue
    exact ⟨.indirect opening e closing, rfl, rfl⟩
  · exact nomatch h

theorem direct_eq_ok {stop : LineEnd} {tokens : List Token} {x : OperandSyntax}
    (hproper : ∀ a : RegisterName "A", tokens ≠ [a.token]) (h : direct stop tokens = .ok (x, [])) :
    ∃ form : OperandForm, form.tokens = tokens ∧ form.form = x := by
  obtain ⟨⟨value, rest⟩, hvalue, h⟩ := Check.bind_eq_ok h
  dsimp only at h
  split at h
  · rename_i comma rest
    split at h
    · split at h
      · rename_i hregister
        obtain ⟨rfl, rfl⟩ := Prod.mk.inj (Except.ok.inj h)
        obtain ⟨r, rfl⟩ := isRegister_iff.mp hregister
        obtain ⟨e, rfl, rfl, -⟩ := expression_eq_ok hvalue
        exact ⟨.indexed e comma .x r, rfl, rfl⟩
      · split at h
        · rename_i hregister
          obtain ⟨rfl, rfl⟩ := Prod.mk.inj (Except.ok.inj h)
          obtain ⟨r, rfl⟩ := isRegister_iff.mp hregister
          obtain ⟨e, rfl, rfl, -⟩ := expression_eq_ok hvalue
          exact ⟨.indexed e comma .y r, rfl, rfl⟩
        · exact nomatch h
    · exact nomatch h
  · obtain ⟨rfl, rfl⟩ := Prod.mk.inj (Except.ok.inj h)
    obtain ⟨e, rfl, rfl, -⟩ := expression_eq_ok hvalue
    rw [List.append_nil] at hproper ⊢
    exact ⟨.direct e hproper, rfl, rfl⟩

theorem operandSyntax_eq_ok {stop : LineEnd} {tokens : List Token} {x : OperandSyntax}
    (h : operandSyntax stop tokens = .ok (x, [])) :
    ∃ form : OperandForm, form.tokens = tokens ∧ form.form = x := by
  unfold operandSyntax at h
  split at h
  · rename_i hash rest
    obtain ⟨⟨value, left⟩, hvalue, h⟩ := Check.bind_eq_ok h
    obtain ⟨rfl, rfl⟩ := Prod.mk.inj (Except.ok.inj h)
    obtain ⟨e, rfl, rfl, -⟩ := expression_eq_ok hvalue
    exact ⟨.immediate hash e, by rw [List.append_nil]; rfl, rfl⟩
  · rename_i opening rest
    exact parenthesized_eq_ok opening h
  · rename_i t _ _
    split at h
    · rename_i hregister
      obtain ⟨r, rfl⟩ := isRegister_iff.mp hregister
      obtain ⟨rfl, -⟩ := Prod.mk.inj (Except.ok.inj h)
      exact ⟨.accumulator r, rfl, rfl⟩
    · rename_i hregister
      refine direct_eq_ok (fun a ha => hregister ?_) h
      exact isRegister_iff.mpr ⟨a, (List.cons.inj ha).1⟩
  · rename_i hsingle
    refine direct_eq_ok (fun a ha => ?_) h
    exact hsingle _ ha

theorem Grammar.Expression.tokens_injective {e e' : Expression} (h : e.tokens = e'.tokens) : e = e' :=
  (Expression.append_inj endsSum_nil endsSum_nil (by rw [h])).1

theorem Grammar.RegisterName.token_injective {register : String} {r r' : RegisterName register}
    (h : r.token = r'.token) : r = r' := by
  cases r
  cases r'
  obtain ⟨hname, rfl⟩ := Token.mk.inj h
  cases hname
  rfl

theorem Grammar.OperandForm.tokens_injective {x y : OperandForm} (h : x.tokens = y.tokens) : x = y := by
  -- the parser tells the rules apart, so both derivations begin with the same one
  have hform : x.form = y.form := by
    have hread := operandSyntax_tokens ⟨"", .first⟩ x
    rw [h, operandSyntax_tokens] at hread
    exact (Prod.mk.inj (Except.ok.inj hread)).1.symm
  cases x with
  | immediate hash value =>
      cases y with
      | immediate hash' value' =>
          obtain ⟨hhash, hvalue⟩ := List.cons.inj h
          rw [(Token.mk.inj hhash).2, Expression.tokens_injective hvalue]
      | _ => exact nomatch hform
  | accumulator register =>
      cases y with
      | accumulator register' => rw [RegisterName.token_injective (List.cons.inj h).1]
      | _ => exact nomatch hform
  | indexedIndirect opening value comma register closing =>
      cases y with
      | indexedIndirect opening' value' comma' register' closing' =>
          obtain ⟨hopening, hinside⟩ := List.cons.inj h
          obtain ⟨rfl, hrest⟩ := Expression.append_inj (endsSum_comma _ _) (endsSum_comma _ _) hinside
          obtain ⟨hcomma, hrest⟩ := List.cons.inj hrest
          obtain ⟨hregister, hrest⟩ := List.cons.inj hrest
          rw [(Token.mk.inj hopening).2, (Token.mk.inj hcomma).2, RegisterName.token_injective hregister,
            (Token.mk.inj (List.cons.inj hrest).1).2]
      | _ => exact nomatch hform
  | indirect opening value closing =>
      cases y with
      | indirect opening' value' closing' =>
          obtain ⟨hopening, hinside⟩ := List.cons.inj h
          obtain ⟨rfl, hrest⟩ :=
            Expression.append_inj (endsSum_rightParen _ _) (endsSum_rightParen _ _) hinside
          rw [(Token.mk.inj hopening).2, (Token.mk.inj (List.cons.inj hrest).1).2]
      | _ => exact nomatch hform
  | indirectIndexed opening value closing comma register =>
      cases y with
      | indirectIndexed opening' value' closing' comma' register' =>
          obtain ⟨hopening, hinside⟩ := List.cons.inj h
          obtain ⟨rfl, hrest⟩ :=
            Expression.append_inj (endsSum_rightParen _ _) (endsSum_rightParen _ _) hinside
          obtain ⟨hclosing, hrest⟩ := List.cons.inj hrest
          obtain ⟨hcomma, hrest⟩ := List.cons.inj hrest
          rw [(Token.mk.inj hopening).2, (Token.mk.inj hclosing).2, (Token.mk.inj hcomma).2,
            RegisterName.token_injective (List.cons.inj hrest).1]
      | _ => exact nomatch hform
  | direct value proper =>
      cases y with
      | direct value' proper' =>
          obtain rfl : value = value' := Expression.tokens_injective h
          rfl
      | indexed _ _ _ _ => exact nomatch (OperandSyntax.direct.inj hform).2
      | _ => exact nomatch hform
  | indexed value comma index register =>
      cases y with
      | indexed value' comma' index' register' =>
          obtain ⟨rfl, hrest⟩ := Expression.append_inj (endsSum_comma _ _) (endsSum_comma _ _) h
          obtain ⟨hcomma, hrest⟩ := List.cons.inj hrest
          obtain rfl : index = index' := Option.some.inj (OperandSyntax.direct.inj hform).2
          rw [(Token.mk.inj hcomma).2, RegisterName.token_injective (List.cons.inj hrest).1]
      | direct _ _ => exact nomatch (OperandSyntax.direct.inj hform).2
      | _ => exact nomatch hform

-- ── Arguments ───────────────────────────────────────────────────────────────

/-- An argument that is an expression is no text. -/
theorem argument_eq_expression (stop : LineEnd) {t : Token} {rest : List Token}
    (ht : t.kind.beginsExpression = true) :
    argument stop (t :: rest) = (do
      let (value, left) ← expression stop (t :: rest)
      return (.value value, left)) := by
  unfold argument
  split
  · rename_i heq
    rw [(List.cons.inj heq).1] at ht
    exact nomatch ht
  · rfl

theorem argument_tokens (stop : LineEnd) (a : Argument) {rest : List Token} (hrest : EndsSum rest) :
    argument stop (a.tokens ++ rest) = .ok (a.form, rest) := by
  cases a with
  | text content position => rfl
  | value e =>
      obtain ⟨t, tail, htokens, ht⟩ := e.tokens_eq_cons
      have hread := expression_tokens stop e hrest
      show argument stop (e.tokens ++ rest) = _
      rw [htokens, List.cons_append] at hread ⊢
      rw [argument_eq_expression stop ht, hread]
      rfl

theorem argument_eq_ok {stop : LineEnd} {tokens left : List Token} {arg : DirectiveArgument}
    (h : argument stop tokens = .ok (arg, left)) :
    ∃ a : Argument, tokens = a.tokens ++ left ∧ a.form = arg := by
  unfold argument at h
  split at h
  · rename_i content position rest
    obtain ⟨rfl, rfl⟩ := Prod.mk.inj (Except.ok.inj h)
    exact ⟨.text content position, rfl, rfl⟩
  · obtain ⟨⟨value, left'⟩, hvalue, hmade⟩ := Check.bind_eq_ok h
    obtain ⟨rfl, rfl⟩ := Prod.mk.inj (Except.ok.inj hmade)
    obtain ⟨e, rfl, rfl, -⟩ := expression_eq_ok hvalue
    exact ⟨.value e, rfl, rfl⟩

theorem arguments_tokens (stop : LineEnd) (args : Arguments) :
    arguments stop args.tokens = .ok (args.forms, []) := by
  obtain ⟨first, others⟩ := args
  induction others generalizing first with
  | nil =>
      have hfirst : argument stop (Arguments.mk first []).tokens = .ok (first.form, []) :=
        argument_tokens stop first endsSum_nil
      rw [arguments]
      split
      · rename_i fault hfault
        cases hfault.symm.trans hfirst
      · rename_i hread
        cases (Prod.mk.inj (Except.ok.inj (hread.symm.trans hfirst))).2
      · rename_i hread
        obtain ⟨rfl, rfl⟩ := Prod.mk.inj (Except.ok.inj (hread.symm.trans hfirst))
        rfl
  | cons other others ih =>
      obtain ⟨comma, second⟩ := other
      have hfirst : argument stop (Arguments.mk first ((comma, second) :: others)).tokens =
          .ok (first.form, ⟨.comma, comma⟩ :: (Arguments.mk second others).tokens) :=
        argument_tokens stop first (endsSum_comma _ _)
      rw [arguments]
      split
      · rename_i fault hfault
        cases hfault.symm.trans hfirst
      · rename_i hread
        obtain ⟨rfl, hrest⟩ := Prod.mk.inj (Except.ok.inj (hread.symm.trans hfirst))
        rw [(List.cons.inj hrest).2, ih second]
        rfl
      · rename_i hnone hread
        obtain ⟨-, rfl⟩ := Prod.mk.inj (Except.ok.inj (hread.symm.trans hfirst))
        exact absurd rfl (hnone comma _)

theorem arguments_eq_ok {stop : LineEnd} {tokens left : List Token} {forms : List DirectiveArgument}
    (h : arguments stop tokens = .ok (forms, left)) :
    ∃ args : Arguments, tokens = args.tokens ++ left ∧ args.forms = forms := by
  fun_induction arguments stop tokens generalizing forms left with
  | case1 tokens fault hfault => exact nomatch h
  | case2 tokens first comma rest hfirst ih =>
      obtain ⟨a, rfl, rfl⟩ := argument_eq_ok hfirst
      obtain ⟨⟨others, left'⟩, hothers, hmade⟩ := Check.bind_eq_ok h
      obtain ⟨rfl, rfl⟩ := Prod.mk.inj (Except.ok.inj hmade)
      obtain ⟨⟨second, more⟩, rfl, rfl⟩ := ih hothers
      refine ⟨⟨a, (comma, second) :: more⟩, ?_, rfl⟩
      simp [Arguments.tokens]
  | case3 tokens first left' _ hfirst =>
      obtain ⟨a, rfl, rfl⟩ := argument_eq_ok hfirst
      obtain ⟨rfl, rfl⟩ := Prod.mk.inj (Except.ok.inj h)
      exact ⟨⟨a, []⟩, by simp [Arguments.tokens], rfl⟩

/-- Where an argument ends is known from its tokens, and its derivation as well. -/
theorem Grammar.Argument.append_inj {a a' : Argument} {rest rest' : List Token} (hrest : EndsSum rest)
    (hrest' : EndsSum rest') (h : a.tokens ++ rest = a'.tokens ++ rest') : a = a' ∧ rest = rest' := by
  have hread := argument_tokens ⟨"", .first⟩ a hrest
  rw [h, argument_tokens _ _ hrest'] at hread
  obtain ⟨hform, rfl⟩ := Prod.mk.inj (Except.ok.inj hread)
  refine ⟨?_, rfl⟩
  have htokens := List.append_cancel_right h
  cases a with
  | text content position =>
      cases a' with
      | text content' position' =>
          cases htokens
          rfl
      | value e' => exact nomatch hform
  | value e =>
      cases a' with
      | text content' position' => exact nomatch hform
      | value e' => rw [Expression.tokens_injective htokens]

theorem Grammar.Arguments.endsSum_others (others : List (Position × Argument)) :
    EndsSum (others.flatMap (fun other => ⟨.comma, other.1⟩ :: other.2.tokens)) := by
  cases others with
  | nil => exact endsSum_nil
  | cons other others => exact endsSum_comma _ _

theorem Grammar.Arguments.others_injective {others others' : List (Position × Argument)}
    (h : others.flatMap (fun other => (⟨.comma, other.1⟩ : Token) :: other.2.tokens) =
      others'.flatMap (fun other => ⟨.comma, other.1⟩ :: other.2.tokens)) : others = others' := by
  induction others generalizing others' with
  | nil =>
      cases others' with
      | nil => rfl
      | cons _ _ => exact nomatch h
  | cons other others ih =>
      cases others' with
      | nil => exact nomatch h
      | cons other' others' =>
          rw [List.flatMap_cons, List.flatMap_cons] at h
          obtain ⟨hcomma, hrest⟩ := List.cons.inj h
          obtain ⟨hargument, hothers⟩ :=
            Argument.append_inj (endsSum_others others) (endsSum_others others') hrest
          rw [Prod.ext (Token.mk.inj hcomma).2 hargument, ih hothers]

theorem Grammar.Arguments.tokens_injective {args args' : Arguments} (h : args.tokens = args'.tokens) :
    args = args' := by
  obtain ⟨first, others⟩ := args
  obtain ⟨first', others'⟩ := args'
  obtain ⟨rfl, hothers⟩ := Argument.append_inj (endsSum_others others) (endsSum_others others') h
  rw [others_injective hothers]

-- ── Phrases ─────────────────────────────────────────────────────────────────

theorem Grammar.Arguments.tokens_ne_nil (args : Arguments) : args.tokens ≠ [] := by
  obtain ⟨first, others⟩ := args
  cases first with
  | text content position => exact List.cons_ne_nil _ _
  | value e =>
      obtain ⟨t, rest, htokens, -⟩ := e.tokens_eq_cons
      show e.tokens ++ _ ≠ []
      rw [htokens]
      exact List.cons_ne_nil _ _

/-- No operand begins with an equals sign. -/
theorem Grammar.OperandForm.tokens_eq_cons (x : OperandForm) :
    ∃ t rest, x.tokens = t :: rest ∧ t.kind ≠ .equals := by
  have hbegins : ∀ (e : Expression) (more : List Token),
      ∃ t rest, e.tokens ++ more = t :: rest ∧ t.kind ≠ .equals := by
    intro e more
    obtain ⟨t, rest, htokens, ht⟩ := e.tokens_eq_cons
    refine ⟨t, rest ++ more, by rw [htokens, List.cons_append], ?_⟩
    intro hkind
    rw [hkind] at ht
    exact nomatch ht
  cases x with
  | direct value _ =>
      have hvalue := hbegins value []
      rwa [List.append_nil] at hvalue
  | indexed value comma index register => exact hbegins value _
  | _ => exact ⟨_, _, rfl, nofun⟩

/-- A word that no equals sign follows is an instruction. -/
theorem statement_eq_instruction (stop : LineEnd) {word : String} {m : Mnemonic}
    (hm : upperCase word = m.text) (position : Position) {rest : List Token}
    (hrest : ∀ t, rest.head? = some t → t.kind ≠ .equals) :
    statement stop (⟨.identifier word, position⟩ :: rest) = (do
      if rest.isEmpty then return ([⟨.instruction m none, position⟩], [])
      let (operand, left) ← operandSyntax stop rest
      return ([⟨.instruction m (some operand), position⟩], left)) := by
  unfold statement
  dsimp only
  split
  · exact absurd rfl (hrest _ rfl)
  · rw [hm, Mnemonic.ofText?_text]

theorem statement_tokens (stop : LineEnd) (p : Phrase) :
    statement stop (p.first :: p.others) = .ok ([p.statement], []) := by
  cases p with
  | directive d position args =>
      rw [Phrase.first, Phrase.others, statement]
      dsimp only
      rw [Directive.ofName?_name]
      cases args with
      | none => rfl
      | some args =>
          rw [Option.elim_some]
          dsimp only
          rw [if_neg (by simpa using args.tokens_ne_nil), arguments_tokens]
          rfl
  | assignment name position equals value =>
      rw [Phrase.first, Phrase.others, statement]
      dsimp only
      rw [expression_all]
      rfl
  | instruction m word spells position operand =>
      cases operand with
      | none =>
          show statement stop (⟨.identifier word, position⟩ :: []) = _
          rw [statement_eq_instruction stop spells position (by simp)]
          rfl
      | some x =>
          show statement stop (⟨.identifier word, position⟩ :: x.tokens) = _
          obtain ⟨t, rest, htokens, ht⟩ := x.tokens_eq_cons
          rw [statement_eq_instruction stop spells position, operandSyntax_tokens]
          · rw [htokens]
            rfl
          · rw [htokens]
            rintro _ ⟨rfl⟩
            exact ht

theorem statement_eq_ok {stop : LineEnd} {tokens : List Token} {statements : List Statement}
    (h : statement stop tokens = .ok (statements, [])) :
    ∃ phrase : Option Phrase, tokens = phrase.elim [] (fun p => p.first :: p.others) ∧
      (phrase.map Phrase.statement).toList = statements := by
  unfold statement at h
  split at h
  · obtain ⟨rfl, -⟩ := Prod.mk.inj (Except.ok.inj h)
    exact ⟨none, rfl, rfl⟩
  · rename_i t rest
    obtain ⟨kind, position⟩ := t
    cases kind with
    | directive name =>
        dsimp only at h
        split at h
        · cases h
        · rename_i d hd
          obtain rfl : d.name = name := Directive.name_of_ofName? hd
          cases rest with
          | nil =>
              obtain ⟨rfl, -⟩ := Prod.mk.inj (Except.ok.inj h)
              exact ⟨some (.directive d position none), rfl, rfl⟩
          | cons t rest =>
              obtain ⟨⟨forms, left⟩, hargs, hmade⟩ := Check.bind_eq_ok h
              obtain ⟨rfl, rfl⟩ := Prod.mk.inj (Except.ok.inj hmade)
              obtain ⟨args, htokens, rfl⟩ := arguments_eq_ok hargs
              rw [List.append_nil] at htokens
              exact ⟨some (.directive d position (some args)), by rw [htokens]; rfl, rfl⟩
    | identifier name =>
        dsimp only at h
        split at h
        · rename_i equals rest
          obtain ⟨⟨value, left⟩, hvalue, hmade⟩ := Check.bind_eq_ok h
          obtain ⟨rfl, rfl⟩ := Prod.mk.inj (Except.ok.inj hmade)
          obtain ⟨e, rfl, rfl, -⟩ := expression_eq_ok hvalue
          exact ⟨some (.assignment name position equals e), by rw [List.append_nil]; rfl, rfl⟩
        · split at h
          · cases h
          · rename_i m hm
            have hspells : upperCase name = m.text := (Mnemonic.text_of_ofText? hm).symm
            cases rest with
            | nil =>
                obtain ⟨rfl, -⟩ := Prod.mk.inj (Except.ok.inj h)
                exact ⟨some (.instruction m name hspells position none), rfl, rfl⟩
            | cons t rest =>
                obtain ⟨⟨operand, left⟩, hoperand, hmade⟩ := Check.bind_eq_ok h
                obtain ⟨rfl, rfl⟩ := Prod.mk.inj (Except.ok.inj hmade)
                obtain ⟨x, htokens, rfl⟩ := operandSyntax_eq_ok hoperand
                exact ⟨some (.instruction m name hspells position (some x)), by rw [← htokens]; rfl, rfl⟩
    | _ => cases h

/-- What may be left out is known by its tokens, if it has some. -/
theorem Grammar.optional_injective {α : Type} {tokens : α → List Token} (hne : ∀ a, tokens a ≠ [])
    (hinjective : ∀ {a b : α}, tokens a = tokens b → a = b) {x y : Option α}
    (h : x.elim [] tokens = y.elim [] tokens) : x = y := by
  cases x with
  | none =>
      cases y with
      | none => rfl
      | some b => exact absurd h.symm (hne b)
  | some a =>
      cases y with
      | none => exact absurd h (hne a)
      | some b => rw [hinjective h]

theorem Grammar.OperandForm.tokens_ne_nil (x : OperandForm) : x.tokens ≠ [] := by
  obtain ⟨t, rest, htokens, -⟩ := x.tokens_eq_cons
  rw [htokens]
  exact List.cons_ne_nil t rest

theorem Grammar.Phrase.tokens_injective {p p' : Phrase}
    (h : p.first :: p.others = p'.first :: p'.others) : p = p' := by
  -- the parser tells the rules apart here too
  have hbody : p.body = p'.body := by
    have hread := statement_tokens ⟨"", .first⟩ p
    rw [h, statement_tokens] at hread
    have hstatement := (List.cons.inj (Prod.mk.inj (Except.ok.inj hread)).1).1
    exact (Statement.mk.inj hstatement).1.symm
  obtain ⟨hfirst, hothers⟩ := List.cons.inj h
  cases p with
  | directive d position args =>
      cases p' with
      | directive d' position' args' =>
          obtain ⟨rfl, -⟩ := Statement.Body.directive.inj hbody
          rw [(Token.mk.inj hfirst).2,
            optional_injective Arguments.tokens_ne_nil Arguments.tokens_injective hothers]
      | _ => exact nomatch hbody
  | assignment name position equals value =>
      cases p' with
      | assignment name' position' equals' value' =>
          obtain ⟨rfl, -⟩ := Statement.Body.assignment.inj hbody
          obtain ⟨hequals, hvalue⟩ := List.cons.inj hothers
          rw [(Token.mk.inj hfirst).2, (Token.mk.inj hequals).2, Expression.tokens_injective hvalue]
      | _ => exact nomatch hbody
  | instruction m word spells position operand =>
      cases p' with
      | instruction m' word' spells' position' operand' =>
          obtain ⟨rfl, -⟩ := Statement.Body.instruction.inj hbody
          obtain ⟨hword, rfl⟩ := Token.mk.inj hfirst
          obtain rfl : word = word' := Token.Kind.identifier.inj hword
          rw [optional_injective OperandForm.tokens_ne_nil OperandForm.tokens_injective hothers]
      | _ => exact nomatch hbody

-- ── Lines ───────────────────────────────────────────────────────────────────

/-- What follows the labels of a line is parsed as a phrase. -/
theorem lineStatements_eq_statement (stop : LineEnd) {tokens : List Token}
    (h : ∀ name position rest, tokens ≠ ⟨.labelDef name, position⟩ :: rest) :
    lineStatements stop tokens = (do
      let (statements, left) ← statement stop tokens
      match left with
      | [] => return statements
      | _ :: _ => throw (faultAt stop left .unexpectedToken)) := by
  unfold lineStatements
  split
  · exact absurd rfl (h _ _ _)
  · rfl

theorem Grammar.Phrase.first_ne_labelDef (p : Phrase) (name : String) (position : Position) :
    p.first ≠ ⟨.labelDef name, position⟩ := by
  cases p <;> exact nofun

theorem lineStatements_tokens (stop : LineEnd) (line : Grammar.Line) :
    lineStatements stop line.tokens = .ok line.statements := by
  obtain ⟨labels, phrase⟩ := line
  induction labels with
  | nil =>
      cases phrase with
      | none => rfl
      | some p =>
          show lineStatements stop (p.first :: p.others) = .ok [p.statement]
          rw [lineStatements_eq_statement, statement_tokens]
          · rfl
          · intro name position rest h
            exact p.first_ne_labelDef name position (List.cons.inj h).1
  | cons label labels ih =>
      show (lineStatements stop (Grammar.Line.mk labels phrase).tokens >>= fun others =>
        pure (label.statement :: others)) = _
      rw [ih]
      rfl

theorem lineStatements_eq_ok {stop : LineEnd} {tokens : List Token} {statements : List Statement}
    (h : lineStatements stop tokens = .ok statements) :
    ∃ line : Grammar.Line, line.tokens = tokens ∧ line.statements = statements := by
  fun_induction lineStatements stop tokens generalizing statements with
  | case1 name position rest ih =>
      obtain ⟨others, hothers, hmade⟩ := Check.bind_eq_ok h
      obtain ⟨⟨labels, phrase⟩, rfl, rfl⟩ := ih hothers
      exact ⟨⟨⟨name, position⟩ :: labels, phrase⟩, rfl, Except.ok.inj hmade⟩
  | case2 tokens hlabel =>
      obtain ⟨⟨made, left⟩, hmade, h⟩ := Check.bind_eq_ok h
      cases left with
      | cons _ _ => exact nomatch h
      | nil =>
          obtain rfl : made = statements := Except.ok.inj h
          obtain ⟨phrase, rfl, rfl⟩ := statement_eq_ok hmade
          exact ⟨⟨[], phrase⟩, rfl, rfl⟩

theorem Grammar.Label.token_injective {l l' : Label} (h : l.token = l'.token) : l = l' := by
  cases l
  cases l'
  cases h
  rfl

/-- A phrase does not begin with a label. -/
theorem Grammar.Line.phrase_ne_label (phrase : Option Phrase) (l : Label) (rest : List Token) :
    phrase.elim [] (fun p => p.first :: p.others) ≠ l.token :: rest := by
  cases phrase with
  | none => exact nofun
  | some p => exact fun h => p.first_ne_labelDef l.name l.position (List.cons.inj h).1

theorem Grammar.Line.tokens_injective {line line' : Grammar.Line} (h : line.tokens = line'.tokens) :
    line = line' := by
  obtain ⟨labels, phrase⟩ := line
  obtain ⟨labels', phrase'⟩ := line'
  induction labels generalizing labels' with
  | nil =>
      cases labels' with
      | nil =>
          obtain rfl : phrase = phrase' :=
            optional_injective (fun _ => List.cons_ne_nil _ _) Phrase.tokens_injective h
          rfl
      | cons l' labels' => exact absurd h (phrase_ne_label phrase l' _)
  | cons l labels ih =>
      cases labels' with
      | nil => exact absurd h.symm (phrase_ne_label phrase' l _)
      | cons l' labels' =>
          obtain ⟨hlabel, hrest⟩ := List.cons.inj h
          obtain ⟨rfl, rfl⟩ := Grammar.Line.mk.inj (ih labels' hrest)
          rw [Label.token_injective hlabel]

-- ── Texts ───────────────────────────────────────────────────────────────────

theorem parseLines_eq_ok_iff {lines : List Line} {statements : List Statement} :
    parseLines lines = .ok statements ↔
      ∃ derived : List Grammar.Line, derived.map Grammar.Line.tokens = lines.map Line.tokens ∧
        derived.flatMap Grammar.Line.statements = statements := by
  induction lines generalizing statements with
  | nil =>
      constructor
      · intro h
        exact ⟨[], rfl, Except.ok.inj h⟩
      · rintro ⟨derived, htokens, rfl⟩
        rw [List.map_eq_nil_iff.mp htokens]
        rfl
  | cons line lines ih =>
      constructor
      · intro h
        obtain ⟨first, hfirst, h⟩ := Check.bind_eq_ok h
        obtain ⟨others, hothers, hmade⟩ := Check.bind_eq_ok h
        obtain ⟨l, hl, rfl⟩ := lineStatements_eq_ok hfirst
        obtain ⟨derived, hderived, rfl⟩ := ih.mp hothers
        refine ⟨l :: derived, ?_, Except.ok.inj hmade⟩
        rw [List.map_cons, List.map_cons, hl, hderived]
      · rintro ⟨derived, htokens, rfl⟩
        obtain ⟨l, rest, rfl, hl, hrest⟩ := List.map_eq_cons_iff.mp htokens
        have hfirst : line.parse = .ok l.statements := by
          rw [Line.parse, ← hl]
          exact lineStatements_tokens line.stop l
        rw [parseLines, hfirst, ih.mpr ⟨rest, hrest, rfl⟩]
        rfl

/-- The lines of a stream are what stands between its line ends. -/
theorem map_tokens_lines (stream : TokenStream) :
    stream.lines.map Line.tokens = stream.tokens.splitOnP (fun t => t.kind = .newline) := by
  obtain ⟨tokens, stop⟩ := stream
  induction tokens with
  | nil => rfl
  | cons t rest ih =>
      rw [List.splitOnP_cons_eq_if_modifyHead, ← ih]
      by_cases ht : t.kind = .newline
      · obtain ⟨stop', hlines⟩ := lines_newline ⟨rest, stop⟩ ht
        rw [if_pos (decide_eq_true ht)]
        exact congrArg (List.map Line.tokens) hlines
      · obtain ⟨first, others, hfirst⟩ : ∃ first others,
            (TokenStream.mk rest stop).lines = first :: others := ⟨_, _, rfl⟩
        have hlines := lines_prepend hfirst [t] (fun t' h' => List.mem_singleton.mp h' ▸ ht)
        rw [if_neg (by simpa using ht), hfirst]
        exact congrArg (List.map Line.tokens) hlines

/-- The parser accepts exactly what the grammar derives: a text whose lines, which stand between its line
    ends, all have derivations. It answers the statements of these derivations, in order, each at its
    first token. And there is one derivation at most. -/
theorem parse_accepts_grammar {source : String} {stream : TokenStream}
    (h : tokenize source = .ok stream) :
    (∀ statements, parse source = .ok statements ↔
      ∃ lines : List Grammar.Line,
        lines.map Grammar.Line.tokens = stream.tokens.splitOnP (fun t => t.kind = .newline) ∧
        lines.flatMap Grammar.Line.statements = statements) ∧
    ∀ lines lines' : List Grammar.Line,
      lines.map Grammar.Line.tokens = stream.tokens.splitOnP (fun t => t.kind = .newline) →
      lines'.map Grammar.Line.tokens = stream.tokens.splitOnP (fun t => t.kind = .newline) →
      lines = lines' := by
  constructor
  · intro statements
    rw [parse, h, ← map_tokens_lines]
    exact parseLines_eq_ok_iff
  · intro lines lines' hlines hlines'
    have hinjective : Function.Injective Grammar.Line.tokens :=
      fun _ _ hline => Grammar.Line.tokens_injective hline
    exact hinjective.list_map (hlines.trans hlines'.symm)

/-- A text with a label, a comment, an empty line, and a name that is the accumulator where it stands
    alone. -/
def grammarSample : String := "loop: lda (ptr),y ; next\n\nA = <ptr-1\n asl a"

/-- The tokens of `grammarSample`. -/
def grammarTokens : TokenStream := (tokenize grammarSample).toOption.getD ⟨[], .first⟩

/-- The statements of `grammarSample`. -/
def grammarStatements : List Statement :=
  [⟨.label "loop", 1, 1⟩, ⟨.instruction .lda (some (.indirectIndexed (.name "ptr"))), 1, 7⟩,
    ⟨.assignment "A" (.sub (.low (.name "ptr")) (.number 1)), 3, 1⟩,
    ⟨.instruction .asl (some .accumulator), 4, 2⟩]

theorem sample_has_one_derivation :
    tokenize grammarSample = .ok grammarTokens ∧
    ∃ lines : List Grammar.Line,
      lines.map Grammar.Line.tokens =
        grammarTokens.tokens.splitOnP (fun t => t.kind = .newline) ∧
      lines.flatMap Grammar.Line.statements = grammarStatements ∧
      ∀ lines' : List Grammar.Line,
        lines'.map Grammar.Line.tokens =
          grammarTokens.tokens.splitOnP (fun t => t.kind = .newline) → lines' = lines := by
  have htokens : tokenize grammarSample = .ok grammarTokens := by decide +kernel
  obtain ⟨hparse, hunique⟩ := parse_accepts_grammar htokens
  obtain ⟨lines, hlines, hstatements⟩ := (hparse grammarStatements).mp (by decide +kernel)
  exact ⟨htokens, lines, hlines, hstatements, fun lines' h => hunique lines' lines h hlines⟩

end Asm6502.Source
