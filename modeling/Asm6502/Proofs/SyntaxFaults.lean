import Asm6502.Proofs.Placement

/-!
# Where a text is faulty

The scanner fails at a character of the text. The parser looks at the tokens of a line and at what ends the
line, and at nothing else: each of its rules leaves tokens from the end of those that it was given, or fails
at one of them or at the line end. So every fault of a text has the position of a character of it, or of
its end.

* `exists_of_scan_error`: where the scanner fails.
* `Within`: a rule of the parser keeps to the tokens that it was given.
* `exists_of_parse_error`: where a text is faulty.
-/

namespace Asm6502.Source

-- ── Characters ──────────────────────────────────────────────────────────────

/-- A place in a text: that of a character, or its end. -/
def IsPlace (source : String) (p : Position) : Prop :=
  ∃ before after, source.toList = before ++ after ∧ p = Position.first.after before

/-- The scanner fails at a character. -/
theorem exists_of_scan_error {p : Position} {text : List Char} {fault : Fault}
    (h : scan p text = .error fault) :
    ∃ problem before after, fault = .lexical problem (p.after before) ∧ text = before ++ after ∧
      after ≠ [] := by
  induction p, text using scan_induction with
  | nil p =>
      rw [scan_nil] at h
      cases h
  | fails p text problem hsome hfails =>
      rw [hfails] at h
      exact ⟨problem, [], text, (Except.error.inj h).symm, rfl, hsome⟩
  | reads p kind word rest hheads ih =>
      rw [scan_of_heads hheads] at h
      have hlater : scan (p.after word) rest = .error fault := by
        cases hscan : scan (p.after word) rest <;> rw [hscan] at h <;> cases h
        rfl
      obtain ⟨problem, before, after, hfault, hrest, hleft⟩ := ih hlater
      refine ⟨problem, word ++ before, after, ?_, by rw [hrest, List.append_assoc], hleft⟩
      rw [hfault, Position.after_append]

-- ── Tokens of a line ────────────────────────────────────────────────────────

/-- A fault at one of the tokens of a line, or at its end. -/
inductive FaultIn (stop : LineEnd) (tokens : List Token) : Fault → Prop where
  | token (problem : GrammarProblem) {t : Token} (h : t ∈ tokens) :
      FaultIn stop tokens (.grammar problem t.position)
  | stop (problem : GrammarProblem) : FaultIn stop tokens (.grammar problem stop.position)

/-- What a rule may answer that keeps to the tokens of a line. -/
inductive Within {α : Type} (stop : LineEnd) (tokens : List Token) :
    Except Fault (α × List Token) → Prop where
  | answer (a : α) {left : List Token} (h : left <:+ tokens) : Within stop tokens (.ok (a, left))
  | fault {fault : Fault} (h : FaultIn stop tokens fault) : Within stop tokens (.error fault)

variable {α β : Type} {stop : LineEnd} {tokens later left : List Token}

theorem FaultIn.of_suffix {fault : Fault} (h : FaultIn stop later fault) (hlater : later <:+ tokens) :
    FaultIn stop tokens fault := by
  cases h with
  | token problem ht => exact .token problem (hlater.mem ht)
  | stop problem => exact .stop problem

namespace Within

theorem of_suffix {result : Except Fault (α × List Token)} (h : Within stop later result)
    (hlater : later <:+ tokens) : Within stop tokens result := by
  cases h with
  | answer a hleft => exact .answer a (hleft.trans hlater)
  | fault hfault => exact .fault (hfault.of_suffix hlater)

/-- A rule that goes on with what another one leaves. -/
theorem bind {result : Except Fault (α × List Token)}
    {next : α × List Token → Except Fault (β × List Token)} (h : Within stop tokens result)
    (hnext : ∀ a left, left <:+ tokens → Within stop left (next (a, left))) :
    Within stop tokens (result >>= next) := by
  cases h with
  | answer a hleft => exact (hnext a _ hleft).of_suffix hleft
  | fault hfault => exact .fault hfault

theorem ok (a : α) (tokens : List Token) : Within stop tokens (.ok (a, tokens)) :=
  .answer a List.suffix_rfl

theorem rest (a : α) (t : Token) (tokens : List Token) : Within stop (t :: tokens) (.ok (a, tokens)) :=
  .answer a (List.suffix_cons t tokens)

theorem suffix_of_ok {a : α} (h : Within stop tokens (.ok (a, left))) : left <:+ tokens := by
  cases h
  assumption

theorem faultIn_of_error {fault : Fault}
    (h : Within stop tokens (.error fault : Except Fault (α × List Token))) :
    FaultIn stop tokens fault := by
  cases h
  assumption

/-- A rule for the tokens behind the first. -/
theorem cons {result : Except Fault (α × List Token)} (h : Within stop tokens result) (t : Token) :
    Within stop (t :: tokens) result :=
  h.of_suffix (List.suffix_cons t tokens)

end Within

theorem faultIn_faultAt (stop : LineEnd) (tokens : List Token) (problem : String → GrammarProblem) :
    FaultIn stop tokens (faultAt stop tokens problem) := by
  cases tokens with
  | nil => exact .stop _
  | cons t rest => exact .token _ (List.mem_cons_self ..)

theorem within_faultAt (stop : LineEnd) (tokens : List Token) (problem : String → GrammarProblem) :
    Within stop tokens (.error (faultAt stop tokens problem) : Except Fault (α × List Token)) :=
  .fault (faultIn_faultAt stop tokens problem)

-- ── Rules of the parser ─────────────────────────────────────────────────────

theorem within_unary (stop : LineEnd) (tokens : List Token) : Within stop tokens (unary stop tokens) := by
  induction tokens with
  | nil => exact within_faultAt stop [] _
  | cons t rest ih =>
      rw [unary]
      split
      · exact (ih.bind (fun operand left _ => .ok (Operand.low operand) left)).cons t
      · exact (ih.bind (fun operand left _ => .ok (Operand.high operand) left)).cons t
      · exact (ih.bind (fun operand left _ => .ok (Operand.sub (.number 0) operand) left)).cons t
      · exact .rest _ t rest
      · exact .rest _ t rest
      · exact .rest _ t rest
      · exact within_faultAt stop (t :: rest) _

theorem within_sum (stop : LineEnd) (first : Operand) (tokens : List Token) :
    Within stop tokens (sum stop first tokens) := by
  fun_induction sum stop first tokens with
  | case1 first => exact .ok first []
  | case2 first t rest _ right more hunary ih =>
      have hrest := within_unary stop rest
      rw [hunary] at hrest
      exact (ih.of_suffix hrest.suffix_of_ok).cons t
  | case3 first t rest _ fault hunary =>
      have hrest := within_unary stop rest
      rw [hunary] at hrest
      exact .fault (hrest.faultIn_of_error.of_suffix (List.suffix_cons t rest))
  | case4 first t rest _ right more hunary ih =>
      have hrest := within_unary stop rest
      rw [hunary] at hrest
      exact (ih.of_suffix hrest.suffix_of_ok).cons t
  | case5 first t rest _ fault hunary =>
      have hrest := within_unary stop rest
      rw [hunary] at hrest
      exact .fault (hrest.faultIn_of_error.of_suffix (List.suffix_cons t rest))
  | case6 first t rest => exact .ok first (t :: rest)

theorem within_expression (stop : LineEnd) (tokens : List Token) :
    Within stop tokens (expression stop tokens) :=
  (within_unary stop tokens).bind (fun first left _ => within_sum stop first left)

theorem within_parenthesized (stop : LineEnd) (tokens : List Token) :
    Within stop tokens (parenthesized stop tokens) := by
  refine (within_expression stop tokens).bind (fun value rest _ => ?_)
  dsimp only
  split
  · split
    · split
      · split
        · exact ((Within.rest _ _ _).cons _).cons _
        · exact ((within_faultAt stop _ _).cons _).cons _
      · exact (within_faultAt stop _ _).cons _
    · exact (within_faultAt stop _ _).cons _
  · split
    · split
      · exact ((Within.rest _ _ _).cons _).cons _
      · exact ((within_faultAt stop _ _).cons _).cons _
    · exact ((within_faultAt stop _ _).cons _).cons _
  · exact .rest _ _ _
  · exact within_faultAt stop _ _

theorem within_direct (stop : LineEnd) (tokens : List Token) :
    Within stop tokens (direct stop tokens) := by
  refine (within_expression stop tokens).bind (fun value rest _ => ?_)
  dsimp only
  split
  · split
    · split
      · exact (Within.rest _ _ _).cons _
      · split
        · exact (Within.rest _ _ _).cons _
        · exact (within_faultAt stop _ _).cons _
    · exact (within_faultAt stop _ _).cons _
  · exact .ok _ _

theorem within_operandSyntax (stop : LineEnd) (tokens : List Token) :
    Within stop tokens (operandSyntax stop tokens) := by
  unfold operandSyntax
  split
  · exact ((within_expression stop _).bind (fun value left _ => .ok (OperandSyntax.immediate value) left)).cons _
  · exact (within_parenthesized stop _).cons _
  · split
    · exact .rest _ _ _
    · exact within_direct stop _
  · exact within_direct stop tokens

theorem within_argument (stop : LineEnd) (tokens : List Token) :
    Within stop tokens (argument stop tokens) := by
  unfold argument
  split
  · exact .rest _ _ _
  · exact (within_expression stop tokens).bind (fun value left _ => .ok (DirectiveArgument.value value) left)

theorem within_arguments (stop : LineEnd) (tokens : List Token) :
    Within stop tokens (arguments stop tokens) := by
  fun_induction arguments stop tokens with
  | case1 tokens fault hargument =>
      have hwithin := within_argument stop tokens
      rw [hargument] at hwithin
      exact .fault hwithin.faultIn_of_error
  | case2 tokens first p rest hargument ih =>
      have hwithin := within_argument stop tokens
      rw [hargument] at hwithin
      refine Within.of_suffix (Within.cons (Within.bind ih (fun others left _ => ?_)) _)
        hwithin.suffix_of_ok
      exact .ok (first :: others) left
  | case3 tokens first left _ hargument =>
      have hwithin := within_argument stop tokens
      rw [hargument] at hwithin
      exact .answer _ hwithin.suffix_of_ok

theorem within_statement (stop : LineEnd) (tokens : List Token) :
    Within stop tokens (statement stop tokens) := by
  unfold statement
  split
  · exact .ok _ []
  · rename_i t rest
    split
    · split
      · exact .fault (.token _ (List.mem_cons_self ..))
      · dsimp only
        split
        · exact .answer _ List.nil_suffix
        · refine Within.cons (Within.bind (within_arguments stop rest) ?_) t
          exact fun args left _ => .ok _ left
    · split
      · refine Within.cons (Within.cons (Within.bind (within_expression stop _) ?_) _) _
        exact fun value left _ => .ok _ left
      · split
        · exact .fault (.token _ (List.mem_cons_self ..))
        · split
          · exact .answer _ List.nil_suffix
          · refine Within.cons (Within.bind (within_operandSyntax stop rest) ?_) t
            exact fun operand left _ => .ok _ left
    · exact within_faultAt stop _ _

/-- The statements of a line fail at a token of the line, or at its end. -/
theorem faultIn_of_lineStatements {fault : Fault} (h : lineStatements stop tokens = .error fault) :
    FaultIn stop tokens fault := by
  fun_induction lineStatements stop tokens with
  | case1 name p rest ih =>
      rcases Check.bind_eq_error h with hothers | ⟨others, -, hno⟩
      · exact (ih hothers).of_suffix (List.suffix_cons _ rest)
      · cases hno
  | case2 tokens _ =>
      have hwithin := within_statement stop tokens
      rcases Check.bind_eq_error h with hstatement | ⟨⟨statements, left⟩, hstatement, hleft⟩
      · rw [hstatement] at hwithin
        exact hwithin.faultIn_of_error
      · rw [hstatement] at hwithin
        cases left with
        | nil => cases hleft
        | cons t rest =>
            rw [← Except.error.inj hleft]
            exact (faultIn_faultAt stop (t :: rest) _).of_suffix hwithin.suffix_of_ok

theorem exists_of_parseLines_error {lines : List Line} {fault : Fault}
    (h : parseLines lines = .error fault) : ∃ line ∈ lines, FaultIn line.stop line.tokens fault := by
  induction lines with
  | nil => cases h
  | cons line rest ih =>
      rcases Check.bind_eq_error h with hline | ⟨statements, -, hrest⟩
      · exact ⟨line, List.mem_cons_self .., faultIn_of_lineStatements hline⟩
      · rcases Check.bind_eq_error hrest with hothers | ⟨others, -, hno⟩
        · obtain ⟨line', hmem, hfault⟩ := ih hothers
          exact ⟨line', List.mem_cons_of_mem line hmem, hfault⟩
        · cases hno

-- ── Tokens of a text ────────────────────────────────────────────────────────

/-- A position of a token, or of the end of the text. -/
def TokenStream.Bounds (stream : TokenStream) (p : Position) : Prop :=
  p = stream.stop ∨ ∃ t ∈ stream.tokens, p = t.position

theorem TokenStream.Bounds.cons {tokens : List Token} {stop p : Position}
    (h : (TokenStream.mk tokens stop).Bounds p) (t : Token) :
    (TokenStream.mk (t :: tokens) stop).Bounds p := by
  rcases h with hstop | ⟨t', ht', hp⟩
  · exact Or.inl hstop
  · exact Or.inr ⟨t', List.mem_cons_of_mem t ht', hp⟩

/-- Lines have the tokens of the text, and end at one of them or with the text. -/
theorem bounds_of_mem_lines {tokens : List Token} {stop : Position} {line : Line}
    (h : line ∈ (TokenStream.mk tokens stop).lines) :
    (∀ t ∈ line.tokens, t ∈ tokens) ∧ (TokenStream.mk tokens stop).Bounds line.stop.position := by
  induction tokens generalizing line with
  | nil =>
      rw [List.mem_singleton.mp h]
      exact ⟨fun _ ht => absurd ht List.not_mem_nil, Or.inl rfl⟩
  | cons t tokens ih =>
      have hlater : ∀ {line}, line ∈ (TokenStream.mk tokens stop).lines →
          (∀ t' ∈ line.tokens, t' ∈ t :: tokens) ∧
            (TokenStream.mk (t :: tokens) stop).Bounds line.stop.position := by
        intro line hline
        obtain ⟨htokens, hstop⟩ := ih hline
        exact ⟨fun t' ht' => List.mem_cons_of_mem t (htokens t' ht'), hstop.cons t⟩
      unfold TokenStream.lines at h hlater
      simp only [List.foldr_cons] at h
      split at h
      · rcases List.mem_cons.mp h with rfl | hmem
        · exact ⟨fun _ ht => absurd ht List.not_mem_nil, Or.inr ⟨t, List.mem_cons_self .., rfl⟩⟩
        · exact hlater hmem
      · rcases List.mem_cons.mp h with rfl | hmem
        · obtain ⟨htokens, hstop⟩ := hlater (List.mem_cons_self ..)
          exact ⟨List.forall_mem_cons.mpr ⟨List.mem_cons_self .., htokens⟩, hstop⟩
        · exact hlater (List.mem_cons_of_mem _ hmem)

/-- The bounds of tokens are places of the text. -/
theorem isPlace_of_bounds {source : String} {stream : TokenStream} {p : Position}
    (hscan : tokenize source = .ok stream) (h : stream.Bounds p) : IsPlace source p := by
  obtain ⟨pieces, hcut, rfl⟩ := scan_eq_ok_iff.mp hscan
  rcases h with rfl | ⟨t, ht, rfl⟩
  · exact ⟨source.toList, [], (List.append_nil _).symm, rfl⟩
  · obtain ⟨front, word, back, rfl, hposition⟩ := Piece.exists_of_mem_placed ht
    refine ⟨Piece.flat front, Piece.flat (⟨word, some t.kind⟩ :: back), ?_, hposition⟩
    rw [← hcut.flat, Piece.flat_append]

/-- Every fault of a text has a place in it: a character that begins no lexeme, or a token that no rule
    admits, or the end. -/
theorem exists_of_parse_error {source : String} {fault : Fault} (h : parse source = .error fault) :
    (∃ problem p, fault = .lexical problem p ∧ tokenize source = .error fault ∧ IsPlace source p) ∨
      ∃ stream problem p, fault = .grammar problem p ∧ tokenize source = .ok stream ∧ stream.Bounds p ∧
        IsPlace source p := by
  rcases Check.bind_eq_error h with hscan | ⟨stream, hscan, hparse⟩
  · obtain ⟨problem, before, after, rfl, htext, -⟩ := exists_of_scan_error hscan
    exact Or.inl ⟨problem, _, rfl, hscan, before, after, htext, rfl⟩
  · obtain ⟨line, hline, hfault⟩ := exists_of_parseLines_error hparse
    obtain ⟨htokens, hstop⟩ := bounds_of_mem_lines hline
    cases hfault with
    | @token problem t ht =>
        have hbounds : stream.Bounds t.position := Or.inr ⟨t, htokens t ht, rfl⟩
        exact Or.inr ⟨stream, problem, t.position, rfl, hscan, hbounds, isPlace_of_bounds hscan hbounds⟩
    | stop problem =>
        exact Or.inr ⟨stream, problem, line.stop.position, rfl, hscan, hstop,
          isPlace_of_bounds hscan hstop⟩

end Asm6502.Source
