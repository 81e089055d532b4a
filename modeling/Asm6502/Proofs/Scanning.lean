import Asm6502.Proofs.Characters
import Asm6502.Source.Parser

/-!
# Reading text piece by piece

A text is scanned from left to right, and lexemes are as long as possible. So a piece of text is cut into
the same tokens wherever it stands, as long as what follows does not prolong its last lexeme. Which
tokens, and which statements they make, does not depend on their positions.

* `Lexed`: a piece of text, with what follows it, is cut into tokens of given kinds.
* `Says`: a line of text says a statement.
* `parse_lines`: lines that say statements are parsed to them.
* `says_bare`, `says_immediate`, `says_direct`, …: instructions with a number, one for each way to write an
  operand.
-/

namespace Asm6502.Source

-- ── Pieces of text ──────────────────────────────────────────────────────────

/-- A stream with tokens put in front. -/
def TokenStream.prepend (s : TokenStream) (tokens : List Token) : TokenStream :=
  { s with tokens := tokens ++ s.tokens }

/-- A piece of text with `rest` behind it is cut into tokens of these kinds, and then `rest` is scanned. -/
def Lexed (text rest : List Char) (kinds : List Token.Kind) : Prop :=
  ∀ p, ∃ tokens : List Token, tokens.map (·.kind) = kinds ∧
    scan p (text ++ rest) = (scan (p.after text) rest).map (·.prepend tokens)

namespace Lexed

/-- A lexeme that makes a token. -/
theorem token {kind : Token.Kind} {word rest : List Char} {follow : Char → Bool}
    (h : Spelled kind word follow) (hstops : Stops follow rest) : Lexed word rest [kind] := by
  intro p
  refine ⟨[⟨kind, p⟩], rfl, ?_⟩
  rw [scan_of_heads (.token h hstops)]
  cases scan (p.after word) rest <;> rfl

/-- Blanks. -/
theorem blanks {run rest : List Char} (hsome : run ≠ []) (hrun : ∀ c ∈ run, isLineBlank c = true) :
    Lexed run rest [] := by
  intro p
  refine ⟨[], rfl, ?_⟩
  rw [scan_of_heads (.blanks hsome hrun)]
  cases scan (p.after run) rest <;> rfl

theorem append {text more rest : List Char} {kinds later : List Token.Kind}
    (h : Lexed text (more ++ rest) kinds) (h' : Lexed more rest later) :
    Lexed (text ++ more) rest (kinds ++ later) := by
  intro p
  obtain ⟨tokens, hkinds, hscan⟩ := h p
  obtain ⟨tokens', hkinds', hscan'⟩ := h' (p.after text)
  refine ⟨tokens ++ tokens', by rw [List.map_append, hkinds, hkinds'], ?_⟩
  rw [List.append_assoc, hscan, hscan', ← Position.after_append]
  cases scan (p.after (text ++ more)) rest with
  | error fault => rfl
  | ok stream => simp [TokenStream.prepend]

end Lexed

-- ── Digits ──────────────────────────────────────────────────────────────────

theorem digitValue?_digitChar {d : Nat} (h : d < 16) : digitValue? d.digitChar = some d := by
  have hall : ∀ d < 16, digitValue? d.digitChar = some d := by decide
  exact hall d h

/-- The digits of a number in a base are digits, and stand for it. -/
theorem toDigits_read {base : Nat} (hbase : 1 < base) (hletters : base ≤ 16) (n : Nat) :
    (∀ c ∈ Nat.toDigits base n, isDigitIn base c = true) ∧
      natOfDigits base (Nat.toDigits base n) = n := by
  induction n using Nat.strongRecOn with
  | ind n ih =>
      have hdigit : ∀ d < base, isDigitIn base d.digitChar = true := by
        intro d hd
        unfold isDigitIn
        rw [digitValue?_digitChar (by omega)]
        exact decide_eq_true hd
      rw [Nat.toDigits_eq_if hbase]
      split
      · rename_i hsmall
        refine ⟨fun c hc => ?_, ?_⟩
        · rw [List.mem_singleton.mp hc]
          exact hdigit n hsmall
        · simp [natOfDigits, digitValue?_digitChar (show n < 16 by omega)]
      · rename_i hlarge
        obtain ⟨hall, hvalue⟩ := ih (n / base) (Nat.div_lt_self (by omega) hbase)
        have hlast : n % base < base := Nat.mod_lt n (by omega)
        refine ⟨fun c hc => ?_, ?_⟩
        · rcases List.mem_append.mp hc with hc | hc
          · exact hall c hc
          · rw [List.mem_singleton.mp hc]
            exact hdigit _ hlast
        · unfold natOfDigits at hvalue ⊢
          rw [List.foldl_append, hvalue]
          simp only [List.foldl_cons, List.foldl_nil, digitValue?_digitChar (show n % base < 16 by omega),
            Option.getD_some]
          exact Nat.div_add_mod' n base

/-- The hexadecimal digits of a number are digits, and stand for it. -/
theorem hexDigits_read (n : Nat) :
    (∀ c ∈ hexDigits n, isDigitIn 16 c = true) ∧ natOfDigits 16 (hexDigits n) = n :=
  toDigits_read (by decide) (by decide) n

theorem hexDigits_ne_nil (n : Nat) : hexDigits n ≠ [] := Nat.toDigits_ne_nil

/-- Text that is hexadecimal digits of a number. -/
structure Spells (text : String) (n : Nat) : Prop where
  digits : ∀ c ∈ text.toList, isDigitIn 16 c = true
  some : text.toList ≠ []
  value : natOfDigits 16 text.toList = n

theorem spells_hexDigits (n : Nat) : Spells (String.ofList (hexDigits n)) n where
  digits := by rw [String.toList_ofList]; exact (hexDigits_read n).1
  some := by rw [String.toList_ofList]; exact hexDigits_ne_nil n
  value := by rw [String.toList_ofList]; exact (hexDigits_read n).2

/-- Zeros in front do not count. -/
theorem Spells.padZeros {text : String} {n : Nat} (h : Spells text n) (width : Nat) :
    Spells (padZeros width text) n := by
  have htext : (Asm6502.padZeros width text).toList =
      List.replicate (width - text.length) '0' ++ text.toList := by
    rw [Asm6502.padZeros, String.toList_append, String.toList_ofList]
  have hzeros : ∀ k, natOfDigits 16 (List.replicate k '0' ++ text.toList) = n := by
    intro k
    induction k with
    | zero => exact h.value
    | succ k ih => exact ih
  refine ⟨fun c hc => ?_, ?_, by rw [htext, hzeros]⟩
  · rw [htext] at hc
    rcases List.mem_append.mp hc with hc | hc
    · rw [(List.mem_replicate.mp hc).2]
      decide
    · exact h.digits c hc
  · rw [htext]
    exact List.append_ne_nil_of_right_ne_nil _ h.some

/-- A number up to `2^53` is read as its digits say. -/
theorem ofDigits_of_le {base n : Nat} {digits : List Char} (h : natOfDigits base digits = n)
    (hn : n ≤ Number.exactLimit) : Number.ofDigits base digits = .ofNat n := by
  unfold Number.ofDigits Number.ofRat
  rw [h, if_pos ⟨rfl, by simpa using hn⟩]
  rfl

/-- A number up to `2^53` is read as it is written. -/
theorem Spells.ofDigits {text : String} {n : Nat} (h : Spells text n) (hn : n ≤ Number.exactLimit) :
    Number.ofDigits 16 text.toList = .ofNat n := ofDigits_of_le h.value hn

-- ── Lines ───────────────────────────────────────────────────────────────────

/-- Tokens other than line ends belong to the first line. -/
theorem lines_prepend {s : TokenStream} {first : Line} {others : List Line} (h : s.lines = first :: others)
    (tokens : List Token) (hline : ∀ t ∈ tokens, t.kind ≠ .newline) :
    (s.prepend tokens).lines = { first with tokens := tokens ++ first.tokens } :: others := by
  induction tokens with
  | nil => exact h
  | cons t rest ih =>
      have hrest := ih (fun t' h' => hline t' (List.mem_cons_of_mem _ h'))
      unfold TokenStream.lines TokenStream.prepend at hrest ⊢
      simp only [List.cons_append, List.foldr_cons] at hrest ⊢
      obtain ⟨hfirst, hothers⟩ := List.cons.inj hrest
      split
      · rename_i hnewline
        exact absurd hnewline (hline t (List.mem_cons_self ..))
      · rw [hfirst, hothers]

/-- A line end begins a new line. -/
theorem lines_newline (s : TokenStream) {t : Token} (h : t.kind = .newline) :
    ∃ stop, (s.prepend [t]).lines = ⟨[], stop⟩ :: s.lines := by
  refine ⟨⟨t.kind.text, t.position⟩, ?_⟩
  unfold TokenStream.lines TokenStream.prepend
  simp only [List.cons_append, List.nil_append, List.foldr_cons]
  rw [h]

/-- A text without line ends says a statement, wherever it stands as a line. -/
def Says (text : List Char) (body : Statement.Body) : Prop :=
  ∃ kinds : List Token.Kind, (∀ kind ∈ kinds, kind ≠ .newline) ∧
    (∀ rest, LineEnds rest → Lexed text rest kinds) ∧
    ∀ stop (tokens : List Token), tokens.map (·.kind) = kinds →
      ∃ q, lineStatements stop tokens = .ok [⟨body, q⟩]

/-- Lines that say statements are scanned and parsed to them. -/
theorem scan_lines {lines : List (List Char)} {bodies : List Statement.Body}
    (h : List.Forall₂ Says lines bodies) (p : Position) :
    ∃ stream statements, scan p (['\n'].intercalate lines) = .ok stream ∧
      parseLines stream.lines = .ok statements ∧ statements.map (·.body) = bodies := by
  induction h generalizing p with
  | nil =>
      refine ⟨⟨[], p⟩, [], ?_, rfl, rfl⟩
      rw [List.intercalate_nil, scan_nil]
  | @cons line body lines bodies hline hlines ih =>
      obtain ⟨kinds, hkinds, hlexed, hsays⟩ := hline
      -- the tokens of this line in front of a stream whose first line is empty
      have hfirst : ∀ (s : TokenStream) (tokens : List Token) (stop : LineEnd) (others : List Line)
          (statements : List Statement), tokens.map (·.kind) = kinds →
          s.lines = ⟨[], stop⟩ :: others → parseLines others = .ok statements → ∃ q,
          parseLines (s.prepend tokens).lines = .ok (⟨body, q⟩ :: statements) := by
        intro s tokens stop others statements htokens hstream hothers
        have hplain : ∀ t ∈ tokens, t.kind ≠ .newline := by
          intro t ht
          exact hkinds t.kind (htokens ▸ List.mem_map_of_mem ht)
        obtain ⟨q, hq⟩ := hsays stop tokens htokens
        refine ⟨q, ?_⟩
        rw [lines_prepend hstream tokens hplain]
        simp only [List.append_nil, parseLines, Line.parse, hq, hothers, Check.ok_bind, Check.pure_eq_ok,
          List.cons_append, List.nil_append]
      cases hlines with
      | nil =>
          obtain ⟨tokens, htokens, hscan⟩ := hlexed [] (Or.inl rfl) p
          obtain ⟨q, hq⟩ := hfirst ⟨[], p.after line⟩ tokens _ [] [] htokens rfl rfl
          refine ⟨_, _, ?_, hq, rfl⟩
          rw [List.intercalate_singleton, ← List.append_nil line, hscan, List.append_nil, scan_nil]
          rfl
      | @cons line' body' lines' bodies' hline' hlines' =>
          obtain ⟨tokens, htokens, hscan⟩ :=
            hlexed (['\n'] ++ ['\n'].intercalate (line' :: lines')) (Or.inr rfl) p
          obtain ⟨newline, hnewline, hscan'⟩ :=
            Lexed.token .newline (stops_never (['\n'].intercalate (line' :: lines'))) (p.after line)
          obtain ⟨stream, statements, hstream, hparse, hbodies⟩ := ih ((p.after line).after ['\n'])
          obtain ⟨t, more, rfl, ht, hnil⟩ := List.map_eq_cons_iff.mp hnewline
          obtain rfl := List.map_eq_nil_iff.mp hnil
          obtain ⟨stop, hlines⟩ := lines_newline stream ht
          obtain ⟨q, hq⟩ := hfirst (stream.prepend [t]) tokens stop stream.lines statements htokens hlines
            hparse
          refine ⟨_, _, ?_, hq, by rw [List.map_cons, hbodies]⟩
          rw [List.intercalate_cons_cons, List.append_assoc, hscan, hscan', hstream]
          rfl

/-- A text of lines that say statements is parsed to them. -/
theorem parse_lines {lines : List String} {bodies : List Statement.Body}
    (h : List.Forall₂ (fun line body => Says line.toList body) lines bodies) :
    ∃ statements, parse ("\n".intercalate lines) = .ok statements ∧ statements.map (·.body) = bodies := by
  have hlines : List.Forall₂ Says (lines.map String.toList) bodies := List.forall₂_map_left_iff.mpr h
  obtain ⟨stream, statements, hscan, hparse, hbodies⟩ := scan_lines hlines .first
  refine ⟨statements, ?_, hbodies⟩
  unfold parse
  rw [tokenize_eq_scan, String.toList_intercalate, show "\n".toList = ['\n'] from rfl, hscan]
  exact hparse

-- ── Lines of one instruction ────────────────────────────────────────────────

theorem stops_of_lineEnds {p : Char → Bool} {rest : List Char} (hp : p '\n' = false)
    (h : LineEnds rest) : Stops p rest := by
  intro c hc
  rcases h with rfl | hnewline
  · exact nomatch hc
  · rw [hnewline] at hc
    rw [← Option.some.inj hc]
    exact hp

theorem LineEnds.ne_colon {rest : List Char} (h : LineEnds rest) : rest.head? ≠ some ':' := by
  rcases h with rfl | h
  · exact fun h => nomatch h
  · rw [h]
    decide

/-- A text prolongs no name, if it goes on with neither a character of a name nor a colon. -/
theorem stops_prolongsName {rest : List Char} (hrest : Stops isNameChar rest)
    (hcolon : rest.head? ≠ some ':') : Stops prolongsName rest := by
  intro c hc
  refine Bool.or_eq_false_iff.mpr ⟨hrest c hc, beq_eq_false_iff_ne.mpr ?_⟩
  rintro rfl
  exact hcolon hc

theorem lexed_mnemonic (m : Mnemonic) {rest : List Char} (hrest : Stops isNameChar rest)
    (hcolon : rest.head? ≠ some ':') : Lexed m.text.toList rest [.identifier m.text] := by
  have hall : ∀ m ∈ Mnemonic.all, m.text.toList ≠ [] ∧ m.text.toList.head?.all isNameStart = true ∧
      m.text.toList.tail.all isNameChar = true := by decide +kernel
  have hname : ∃ c tail, m.text.toList = c :: tail ∧ isNameStart c = true ∧
      ∀ x ∈ tail, isNameChar x = true := by
    obtain ⟨hsome, hhead, htail⟩ := hall m m.mem_all
    obtain ⟨c, tail, htext⟩ := List.exists_cons_of_ne_nil hsome
    rw [htext] at hhead htail
    exact ⟨c, tail, htext, hhead, List.all_eq_true.mp htail⟩
  obtain ⟨c, tail, htext, hc, htail⟩ := hname
  have hword := Lexed.token (.name hc htail) (stops_prolongsName hrest hcolon)
  rw [← htext, String.ofList_toList] at hword
  exact hword

theorem lexed_blank {c : Char} (hc : isLineBlank c = true) (rest : List Char) : Lexed [c] rest [] :=
  Lexed.blanks (List.cons_ne_nil c []) (List.forall_mem_singleton.mpr hc)

theorem lexed_spelled {text : String} {n : Nat} (h : Spells text n) (hn : n ≤ 65535) {rest : List Char}
    (hrest : Stops (isDigitIn 16) rest) : Lexed ('$' :: text.toList) rest [.number (.ofNat n)] := by
  have hmarked := Lexed.token (.hexadecimal h.some h.digits) hrest
  rw [h.ofDigits (by unfold Number.exactLimit; omega)] at hmarked
  exact hmarked

theorem lexed_mark {c : Char} {kind : Token.Kind} (h : Token.Kind.ofPunctuation? c = some kind)
    (rest : List Char) : Lexed [c] rest [kind] :=
  Lexed.token (.punctuation h) (stops_never rest)

theorem lexed_open (rest : List Char) : Lexed ['('] rest [.leftParen] := lexed_mark rfl rest

theorem lexed_close (rest : List Char) : Lexed [')'] rest [.rightParen] := lexed_mark rfl rest

/-- A comma and the name of an index register. -/
theorem lexed_index (i : Index) {rest : List Char} (hrest : Stops isNameChar rest)
    (hcolon : rest.head? ≠ some ':') :
    Lexed (',' :: i.text.toList) rest [.comma, .identifier i.text] := by
  have hcomma : ∀ rest, Lexed [','] rest [.comma] := lexed_mark rfl
  have hstops := stops_prolongsName hrest hcolon
  cases i with
  | x => exact (hcomma _).append (Lexed.token (.name rfl (by simp)) hstops)
  | y => exact (hcomma _).append (Lexed.token (.name rfl (by simp)) hstops)

/-- A number alone is an expression, if no sum goes on behind it. -/
theorem expression_number (stop : LineEnd) (x : Number) (p : Position) (rest : List Token)
    (hplus : rest.head?.map (·.kind) ≠ some .plus) (hminus : rest.head?.map (·.kind) ≠ some .minus) :
    expression stop (⟨.number x, p⟩ :: rest) = .ok (.number x, rest) := by
  have hunary : unary stop (⟨.number x, p⟩ :: rest) = .ok (.number x, rest) := by rw [unary]
  unfold expression
  rw [hunary, Check.ok_bind]
  show sum stop (.number x) rest = .ok (.number x, rest)
  cases rest with
  | nil => rw [sum]
  | cons t more =>
      rw [sum]
      split
      · rename_i hkind
        exact absurd (congrArg some hkind) hplus
      · rename_i hkind
        exact absurd (congrArg some hkind) hminus
      · rfl

theorem ofText?_upperCase_text (m : Mnemonic) : Mnemonic.ofText? (upperCase m.text) = some m := by
  have hall : ∀ m ∈ Mnemonic.all, Mnemonic.ofText? (upperCase m.text) = some m := by decide +kernel
  exact hall m m.mem_all

/-- A line of a mnemonic alone. -/
theorem lineStatements_bare (stop : LineEnd) (m : Mnemonic) (p : Position) :
    lineStatements stop [⟨.identifier m.text, p⟩] = .ok [⟨.instruction m none, p⟩] := by
  have hstatement : statement stop [⟨.identifier m.text, p⟩] = .ok ([⟨.instruction m none, p⟩], []) := by
    simp only [statement, ofText?_upperCase_text]
    rfl
  rw [lineStatements, hstatement]
  · rfl
  · intro name p' rest h
    cases h

/-- A line of a mnemonic and tokens that are an operand. -/
theorem lineStatements_operand {stop : LineEnd} {m : Mnemonic} {x : OperandSyntax} {t : Token}
    {tokens : List Token} (p : Position) (hequals : t.kind ≠ .equals)
    (hparse : operandSyntax stop (t :: tokens) = .ok (x, [])) :
    lineStatements stop (⟨.identifier m.text, p⟩ :: t :: tokens) =
      .ok [⟨.instruction m (some x), p⟩] := by
  have hstatement : statement stop (⟨.identifier m.text, p⟩ :: t :: tokens) =
      .ok ([⟨.instruction m (some x), p⟩], []) := by
    rw [statement]
    simp only
    split
    · rename_i heq
      rw [(List.cons.inj heq).1] at hequals
      exact absurd rfl hequals
    · simp only [ofText?_upperCase_text, hparse]
      rfl
  rw [lineStatements, hstatement]
  · rfl
  · intro name p' rest h
    cases h

/-- An operand behind a mnemonic and a blank. -/
theorem says_operand {m : Mnemonic} {x : OperandSyntax} {c : Char} {tail : List Char}
    (kinds : List Token.Kind) (hkinds : ∀ kind ∈ kinds, kind ≠ .newline) (hsome : kinds ≠ [])
    (hequals : kinds.head? ≠ some .equals)
    (hlexed : ∀ rest, LineEnds rest → Lexed (c :: tail) rest kinds)
    (hparse : ∀ stop (tokens : List Token), tokens.map (·.kind) = kinds →
      operandSyntax stop tokens = .ok (x, [])) :
    Says (m.text.toList ++ ([' '] ++ c :: tail)) (.instruction m (some x)) := by
  refine ⟨[Token.Kind.identifier m.text] ++ ([] ++ kinds), ?_, ?_, ?_⟩
  · intro kind hkind
    rcases List.mem_cons.mp hkind with rfl | hkind
    · exact fun h => nomatch h
    · exact hkinds kind hkind
  · intro rest hrest
    refine (lexed_mnemonic m ?_ ?_).append ((lexed_blank rfl _).append (hlexed rest hrest))
    · exact stops_cons (by decide) _
    · exact fun h => nomatch h
  · intro stop tokens htokens
    obtain ⟨⟨kind, position⟩, more, rfl, ht, hmore⟩ := List.map_eq_cons_iff.mp htokens
    obtain rfl : kind = .identifier m.text := ht
    have hmore' : more.map (·.kind) = kinds := hmore
    cases more with
    | nil => exact absurd hmore'.symm hsome
    | cons t rest =>
        rw [← hmore'] at hequals
        refine ⟨position, lineStatements_operand position (fun h => hequals ?_) (hparse _ _ hmore')⟩
        rw [List.map_cons, List.head?_cons, h]

variable {m : Mnemonic} {text : String} {n : Nat}

theorem says_immediate (h : Spells text n) (hn : n ≤ 65535) :
    Says (m.text.toList ++ ([' '] ++ '#' :: '$' :: text.toList))
      (.instruction m (some (.immediate (.number (.ofNat n))))) := by
  refine says_operand ([Token.Kind.hash] ++ [Token.Kind.number (.ofNat n)]) (by simp)
    (by simp) (by simp) (fun rest hrest => ?_) (fun stop tokens htokens => ?_)
  · have hhash : ∀ rest, Lexed ['#'] rest [.hash] := lexed_mark rfl
    exact (hhash _).append (lexed_spelled h hn (stops_of_lineEnds (by decide) hrest))
  · match tokens, htokens with
    | [⟨_, p⟩, ⟨_, q⟩], rfl =>
      rw [operandSyntax, expression_number stop _ q [] (by simp) (by simp)]
      rfl

theorem says_direct (h : Spells text n) (hn : n ≤ 65535) :
    Says (m.text.toList ++ ([' '] ++ '$' :: text.toList))
      (.instruction m (some (.direct (.number (.ofNat n)) none))) := by
  refine says_operand [.number (.ofNat n)] (by simp) (by simp) (by simp)
    (fun rest hrest => ?_) (fun stop tokens htokens => ?_)
  · exact lexed_spelled h hn (stops_of_lineEnds (by decide) hrest)
  · match tokens, htokens with
    | [⟨_, p⟩], rfl =>
      show direct stop _ = _
      rw [direct, expression_number stop _ p [] (by simp) (by simp)]
      rfl

theorem says_indexed (i : Index) (h : Spells text n) (hn : n ≤ 65535) :
    Says (m.text.toList ++ ([' '] ++ '$' :: (text.toList ++ ',' :: i.text.toList)))
      (.instruction m (some (.direct (.number (.ofNat n)) (some i)))) := by
  refine says_operand ([Token.Kind.number (.ofNat n)] ++ [Token.Kind.comma, .identifier i.text])
    (by simp) (by simp) (by simp) (fun rest hrest => ?_) (fun stop tokens htokens => ?_)
  · exact (lexed_spelled h hn (stops_cons (by decide) _)).append
      (lexed_index i (stops_of_lineEnds (by decide) hrest) hrest.ne_colon)
  · match tokens, htokens with
    | [⟨_, p⟩, ⟨_, q⟩, ⟨_, r⟩], rfl =>
      show direct stop _ = _
      rw [direct, expression_number stop _ p _ (by simp) (by simp)]
      cases i <;> rfl

theorem says_indirect (h : Spells text n) (hn : n ≤ 65535) :
    Says (m.text.toList ++ ([' '] ++ '(' :: ('$' :: text.toList ++ [')'])))
      (.instruction m (some (.indirect (.number (.ofNat n))))) := by
  refine says_operand
    ([Token.Kind.leftParen] ++ ([Token.Kind.number (.ofNat n)] ++ [Token.Kind.rightParen]))
    (by simp) (by simp) (by simp) (fun rest hrest => ?_) (fun stop tokens htokens => ?_)
  · exact (lexed_open _).append
      ((lexed_spelled h hn (stops_cons (by decide) _)).append (lexed_close _))
  · match tokens, htokens with
    | [⟨_, p⟩, ⟨_, q⟩, ⟨_, r⟩], rfl =>
      rw [operandSyntax, parenthesized, expression_number stop _ q _ (by simp) (by simp)]
      rfl

theorem says_indexedIndirect (h : Spells text n) (hn : n ≤ 65535) :
    Says (m.text.toList ++ ([' '] ++ '(' :: ('$' :: text.toList ++ ([',', 'X'] ++ [')']))))
      (.instruction m (some (.indexedIndirect (.number (.ofNat n))))) := by
  refine says_operand
    ([Token.Kind.leftParen] ++ ([Token.Kind.number (.ofNat n)] ++
      ([Token.Kind.comma, .identifier "X"] ++ [Token.Kind.rightParen])))
    (by simp) (by simp) (by simp) (fun rest hrest => ?_) (fun stop tokens htokens => ?_)
  · exact (lexed_open _).append ((lexed_spelled h hn (stops_cons (by decide) _)).append
      ((lexed_index .x (stops_cons (by decide) _) (by simp)).append (lexed_close _)))
  · match tokens, htokens with
    | [⟨_, p⟩, ⟨_, q⟩, ⟨_, r⟩, ⟨_, x⟩, ⟨_, y⟩], rfl =>
      rw [operandSyntax, parenthesized, expression_number stop _ q _ (by simp) (by simp)]
      rfl

theorem says_indirectIndexed (h : Spells text n) (hn : n ≤ 65535) :
    Says (m.text.toList ++ ([' '] ++ '(' :: ('$' :: text.toList ++ ([')'] ++ [',', 'Y']))))
      (.instruction m (some (.indirectIndexed (.number (.ofNat n))))) := by
  refine says_operand
    ([Token.Kind.leftParen] ++ ([Token.Kind.number (.ofNat n)] ++
      ([Token.Kind.rightParen] ++ [Token.Kind.comma, .identifier "Y"])))
    (by simp) (by simp) (by simp) (fun rest hrest => ?_) (fun stop tokens htokens => ?_)
  · exact (lexed_open _).append ((lexed_spelled h hn (stops_cons (by decide) _)).append
      ((lexed_close _).append
        (lexed_index .y (stops_of_lineEnds (by decide) hrest) hrest.ne_colon)))
  · match tokens, htokens with
    | [⟨_, p⟩, ⟨_, q⟩, ⟨_, r⟩, ⟨_, x⟩, ⟨_, y⟩], rfl =>
      rw [operandSyntax, parenthesized, expression_number stop _ q _ (by simp) (by simp)]
      rfl

theorem says_bare : Says m.text.toList (.instruction m none) := by
  refine ⟨[.identifier m.text], by simp, fun rest hrest => ?_, fun stop tokens htokens => ?_⟩
  · exact lexed_mnemonic m (stops_of_lineEnds (by decide) hrest) hrest.ne_colon
  · match tokens, htokens with
    | [⟨_, p⟩], rfl => exact ⟨p, lineStatements_bare stop m p⟩

end Asm6502.Source
