import Mathlib.Logic.Relation
import Asm6502.Proofs.Course
import Asm6502.Proofs.LetterCase

/-!
# Texts that mean the same

Line ends with a carriage return, blanks between tokens, comments at the ends of lines and the letter case
of keywords make no difference: an edited text has the same statements on the same lines, and is compiled
to the same result. A fault of a statement is on the same line, if not in the same column.

An insertion is idle where it leaves the tokens behind it alone. If it stands between two tokens, it also
leaves alone the tokens before it, since it prolongs none of them.

* `Gap`: the places between tokens.
* `Idle`, `Cut.insert`: insertions there.
* `Edit`: the edits.
* `edited_text_means_the_same`: what they keep.
-/

namespace Asm6502.Source

-- ── Places between tokens ───────────────────────────────────────────────────

/-- A place in a text that is cut, with what stands before and behind it: in front of a piece, behind the
    last one, or inside of layout. -/
inductive Gap : List Piece → List Char → List Char → Prop where
  | here (pieces : List Piece) : Gap pieces [] (Piece.flat pieces)
  | inside (before after : List Char) (pieces : List Piece) :
      Gap (⟨before ++ after, none⟩ :: pieces) before (after ++ Piece.flat pieces)
  | later (piece : Piece) {pieces : List Piece} {before after : List Char} (h : Gap pieces before after) :
      Gap (piece :: pieces) (piece.text ++ before) after

theorem Gap.flat {pieces : List Piece} {before after : List Char} (h : Gap pieces before after) :
    Piece.flat pieces = before ++ after := by
  induction h with
  | here pieces => rfl
  | inside before after pieces => rw [Piece.flat_cons, List.append_assoc]
  | later piece _ ih => rw [Piece.flat_cons, ih, List.append_assoc]

/-- A text that can stand in front of another one and makes no difference to its tokens, nor prolongs a
    token that stands in front of it. -/
structure Idle (inserted after : List Char) : Prop where
  plain : ∀ c ∈ inserted, c ≠ '\n'
  stops : Stops prolongsName inserted
  cut : ∀ {pieces : List Piece}, Cut after pieces →
    ∃ pieces', Cut (inserted ++ after) pieces' ∧ Piece.kinds pieces' = Piece.kinds pieces

theorem Stops.insert {p : Char → Bool} {before inserted after : List Char} (h : Stops p (before ++ after))
    (h' : Stops p inserted) : Stops p (before ++ (inserted ++ after)) := by
  cases before with
  | nil => exact h'.append h
  | cons c before => exact stops_cons (h c rfl) _

/-- An idle insertion between tokens keeps them. -/
theorem Cut.insert {text : List Char} {pieces : List Piece} {before after inserted : List Char}
    (h : Cut text pieces) (hgap : Gap pieces before after) (hidle : Idle inserted after) :
    ∃ pieces', Cut (before ++ (inserted ++ after)) pieces' ∧
      Piece.kinds pieces' = Piece.kinds pieces := by
  induction hgap generalizing text with
  | here pieces =>
      refine hidle.cut ?_
      rw [h.flat]
      exact h
  | inside before after pieces =>
      generalize hlayout : before ++ after = layout at h
      cases h with
      | @blank c rest _ hc hrest =>
          rcases List.append_eq_singleton_iff.mp hlayout with ⟨rfl, rfl⟩ | ⟨rfl, rfl⟩
          · rw [hrest.flat] at hidle ⊢
            exact hidle.cut (.blank hc hrest)
          · rw [List.nil_append, hrest.flat] at hidle ⊢
            obtain ⟨pieces', hcut, hkinds⟩ := hidle.cut hrest
            exact ⟨_, .blank hc hcut, hkinds⟩
      | @comment words rest _ hwords hends hrest =>
          rw [hrest.flat] at hidle ⊢
          cases before with
          | nil =>
              obtain rfl : after = ';' :: words := hlayout
              exact hidle.cut (.comment hwords hends hrest)
          | cons c before =>
              -- the comment takes up what is put into it
              obtain ⟨rfl, rfl⟩ := List.cons.inj hlayout
              obtain ⟨hbefore, hafter⟩ := List.forall_mem_append.mp hwords
              have hall : ∀ c ∈ before ++ (inserted ++ after), c ≠ '\n' :=
                List.forall_mem_append.mpr ⟨hbefore, List.forall_mem_append.mpr ⟨hidle.plain, hafter⟩⟩
              have hcut := Cut.comment hall hends hrest
              rw [List.append_assoc, List.append_assoc] at hcut
              exact ⟨_, hcut, rfl⟩
  | @later piece pieces before after hlater ih =>
      cases h with
      | blank hc hrest =>
          obtain ⟨pieces', hcut, hkinds⟩ := ih hrest hidle
          exact ⟨_, .blank hc hcut, hkinds⟩
      | @comment words rest _ hwords hends hrest =>
          cases before with
          | nil =>
              -- the comment takes up what follows it directly
              have hflat : after = rest := hlater.flat.symm.trans hrest.flat
              rw [hflat, List.append_nil]
              have hcut := Cut.comment (List.forall_mem_append.mpr ⟨hwords, hidle.plain⟩) hends hrest
              rw [List.append_assoc] at hcut
              exact ⟨_, hcut, rfl⟩
          | cons c before =>
              obtain ⟨pieces', hcut, hkinds⟩ := ih hrest hidle
              refine ⟨⟨';' :: words, none⟩ :: pieces', ?_, hkinds⟩
              rw [List.append_assoc]
              refine .comment hwords ?_ hcut
              rw [← hrest.flat, hlater.flat] at hends
              exact Or.inr (hends.resolve_left (List.cons_ne_nil _ _))
      | @token kind word rest follow _ hword hstops hrest =>
          obtain ⟨pieces', hcut, hkinds⟩ := ih hrest hidle
          rw [← hrest.flat, hlater.flat] at hstops
          refine ⟨⟨word, some kind⟩ :: pieces', ?_, congrArg (kind :: ·) hkinds⟩
          rw [List.append_assoc]
          exact .token hword (hstops.insert (hword.stops hidle.stops)) hcut

-- ── Blanks and comments ─────────────────────────────────────────────────────

theorem not_prolongs_of_isLineBlank {c : Char} (h : isLineBlank c = true) :
    c ≠ '\n' ∧ prolongsName c = false := by
  unfold isLineBlank at h
  simp only [Bool.or_eq_true, beq_iff_eq] at h
  rcases h with (rfl | rfl) | rfl <;> decide

theorem Piece.kinds_blanks (run : List Char) (pieces : List Piece) :
    kinds (run.map (fun c => ⟨[c], none⟩) ++ pieces) = kinds pieces := by
  induction run with
  | nil => rfl
  | cons c run ih => exact ih

theorem idle_blanks {run : List Char} (hrun : ∀ c ∈ run, isLineBlank c = true) (after : List Char) :
    Idle run after where
  plain c hc := (not_prolongs_of_isLineBlank (hrun c hc)).1
  stops c hc := (not_prolongs_of_isLineBlank (hrun c (List.mem_of_mem_head? hc))).2
  cut h := ⟨_, .blanks hrun h, Piece.kinds_blanks run _⟩

/-- The rest of a line with nothing on it but blanks. -/
def LineTail (after : List Char) : Prop :=
  ∃ run rest, after = run ++ rest ∧ (∀ c ∈ run, isLineBlank c = true) ∧ LineEnds rest

/-- Tokens neither begin nor end with a blank. -/
theorem Spelled.not_blank {kind : Token.Kind} {word : List Char} {follow : Char → Bool}
    (h : Spelled kind word follow) {c : Char} (hc : word.head? = some c ∨ word.getLast? = some c) :
    isLineBlank c = false := by
  have hclass : ∀ d : Char, prolongsName d = true → isLineBlank d = false := by
    intro d hd
    refine Bool.eq_false_iff.mpr (fun hblank => ?_)
    rw [(not_prolongs_of_isLineBlank hblank).2] at hd
    cases hd
  have hname : ∀ d : Char, isNameChar d = true → isLineBlank d = false :=
    fun d hd => hclass d (Bool.or_eq_true_iff.mpr (Or.inl hd))
  have hstart : ∀ d : Char, isNameStart d = true → isLineBlank d = false :=
    fun d hd => hname d (Bool.or_eq_true_iff.mpr (Or.inl hd))
  have hdigit : ∀ (base : Nat) (d : Char), isDigitIn base d = true → isLineBlank d = false :=
    fun base d hd => hname d (isNameChar_of_isDigitIn hd)
  have hmem : c ∈ word := hc.elim List.mem_of_mem_head? List.mem_of_mem_getLast?
  cases h with
  | newline =>
      rw [List.mem_singleton.mp hmem]
      rfl
  | hexadecimal _ hdigits =>
      rcases List.mem_cons.mp hmem with rfl | hmem
      · rfl
      · exact hdigit 16 c (hdigits c hmem)
  | binary _ hdigits =>
      rcases List.mem_cons.mp hmem with rfl | hmem
      · rfl
      · exact hdigit 2 c (hdigits c hmem)
  | decimal hfirst hdigits =>
      rcases List.mem_cons.mp hmem with rfl | hmem
      · exact hdigit 10 c hfirst
      · exact hdigit 10 c (hdigits c hmem)
  | character _ _ =>
      -- a quote at either end
      rcases hc with hc | hc <;> rw [← Option.some.inj hc] <;> rfl
  | string _ =>
      rw [← List.cons_append, List.getLast?_concat] at hc
      rcases hc with hc | hc <;> rw [← Option.some.inj hc] <;> rfl
  | directive hword =>
      rcases List.mem_cons.mp hmem with rfl | hmem
      · rfl
      · exact hname c (hword c hmem)
  | label hfirst htail =>
      rcases List.mem_cons.mp hmem with rfl | hmem
      · exact hstart c hfirst
      · rcases List.mem_append.mp hmem with hmem | hmem
        · exact hname c (htail c hmem)
        · rw [List.mem_singleton.mp hmem]
          rfl
  | name hfirst htail =>
      rcases List.mem_cons.mp hmem with rfl | hmem
      · exact hstart c hfirst
      · exact hname c (htail c hmem)
  | punctuation hmark =>
      rw [List.mem_singleton.mp hmem]
      unfold Token.Kind.ofPunctuation? at hmark
      split at hmark <;> cases hmark <;> rfl

theorem Cut.of_blanks {run rest : List Char} {pieces : List Piece}
    (hrun : ∀ c ∈ run, isLineBlank c = true) (h : Cut (run ++ rest) pieces) :
    ∃ pieces', Cut rest pieces' ∧ Piece.kinds pieces' = Piece.kinds pieces := by
  induction run generalizing pieces with
  | nil => exact ⟨pieces, h, rfl⟩
  | cons c run ih =>
      obtain ⟨hc, hrun⟩ := List.forall_mem_cons.mp hrun
      generalize htext : c :: run ++ rest = text at h
      cases h with
      | done => cases htext
      | blank _ hrest =>
          obtain ⟨-, rfl⟩ := List.cons.inj htext
          obtain ⟨pieces', hcut, hkinds⟩ := ih hrun hrest
          exact ⟨pieces', hcut, hkinds⟩
      | comment _ _ _ =>
          obtain ⟨rfl, -⟩ := List.cons.inj htext
          cases hc
      | token hword _ _ =>
          obtain ⟨d, tail, rfl⟩ := hword.exists_cons
          obtain ⟨rfl, -⟩ := List.cons.inj htext
          rw [hword.not_blank (Or.inl rfl)] at hc
          cases hc

theorem idle_comment {words after : List Char} (hwords : ∀ c ∈ words, c ≠ '\n')
    (hline : LineTail after) : Idle (';' :: words) after where
  plain := List.forall_mem_cons.mpr ⟨by decide, hwords⟩
  stops := stops_cons (by decide) words
  cut h := by
    obtain ⟨run, rest, rfl, hrun, hends⟩ := hline
    obtain ⟨pieces', hrest, hkinds⟩ := h.of_blanks hrun
    have hall : ∀ c ∈ words ++ run, c ≠ '\n' := List.forall_mem_append.mpr
      ⟨hwords, fun c hc => (not_prolongs_of_isLineBlank (hrun c hc)).1⟩
    have hcut := Cut.comment hall hends hrest
    rw [List.append_assoc] at hcut
    exact ⟨_, hcut, hkinds⟩

theorem LineTail.of_append {word rest : List Char} (h : LineTail (word ++ rest)) :
    (∀ c ∈ word, isLineBlank c = true) ∨ '\n' ∈ word := by
  obtain ⟨run, rest', htext, hrun, hends⟩ := h
  rcases List.append_eq_append_iff.mp htext with ⟨tail, rfl, -⟩ | ⟨tail, rfl, rfl⟩
  · exact Or.inl (List.forall_mem_append.mp hrun).1
  · cases tail with
    | nil =>
        rw [List.append_nil]
        exact Or.inl hrun
    | cons c tail =>
        have hline := hends.resolve_left (List.cons_ne_nil c _)
        rw [Option.some.inj hline]
        exact Or.inr (List.mem_append_right run (List.mem_cons_self ..))

/-- No token reaches into the end of a line. -/
theorem Spelled.of_lineTail {kind : Token.Kind} {before after rest : List Char} {follow : Char → Bool}
    (h : Spelled kind (before ++ after) follow) (hline : LineTail (after ++ rest)) :
    before = [] ∨ after = [] := by
  cases hafter : after.getLast? with
  | none => exact Or.inr (List.getLast?_eq_none_iff.mp hafter)
  | some c =>
      have hlast : (before ++ after).getLast? = some c := by
        rw [List.getLast?_append, hafter]
        rfl
      rcases hline.of_append with hblank | hmem
      · have hc := hblank c (List.mem_of_mem_getLast? hafter)
        rw [h.not_blank (Or.inr hlast)] at hc
        cases hc
      · obtain ⟨-, hword⟩ := h.eq_newline (List.mem_append_right before hmem)
        rcases List.append_eq_singleton_iff.mp hword with ⟨hbefore, -⟩ | ⟨-, hnil⟩
        · exact Or.inl hbefore
        · exact Or.inr hnil

/-- The end of a line lies between tokens. -/
theorem Cut.gap_of_lineTail {before after : List Char} {pieces : List Piece}
    (h : Cut (before ++ after) pieces) (hline : LineTail after) : Gap pieces before after := by
  have hhere : ∀ {pieces : List Piece} {text : List Char}, Cut text pieces → Gap pieces [] text := by
    intro pieces text hcut
    rw [← hcut.flat]
    exact .here pieces
  generalize htext : before ++ after = text at h
  induction h generalizing before with
  | done =>
      obtain ⟨rfl, rfl⟩ := List.append_eq_nil_iff.mp htext
      exact .here []
  | @blank c rest pieces hc hrest ih =>
      cases before with
      | nil =>
          rw [show after = c :: rest from htext]
          exact hhere (.blank hc hrest)
      | cons d before =>
          obtain ⟨rfl, hrest'⟩ := List.cons.inj htext
          exact .later ⟨[d], none⟩ (ih hrest')
  | @comment words rest pieces hwords hends hrest ih =>
      rw [← List.cons_append] at htext
      rcases List.append_eq_append_iff.mp htext.symm with ⟨tail, rfl, htail⟩ | ⟨tail, hword, rfl⟩
      · exact .later ⟨';' :: words, none⟩ (ih htail.symm)
      · rw [hword, ← hrest.flat]
        exact .inside before tail pieces
  | @token kind word rest follow pieces hword hstops hrest ih =>
      rcases List.append_eq_append_iff.mp htext.symm with ⟨tail, rfl, htail⟩ | ⟨tail, rfl, rfl⟩
      · exact .later ⟨word, some kind⟩ (ih htail.symm)
      · rcases hword.of_lineTail hline with rfl | rfl
        · exact hhere (.token hword hstops hrest)
        · rw [List.append_nil] at hword ⊢
          have hgap := Gap.later ⟨before, some kind⟩ (hhere hrest)
          rwa [List.append_nil] at hgap

-- ── Edits ───────────────────────────────────────────────────────────────────

/-- One edit that makes no difference to what a text says. -/
inductive Edit : List Char → List Char → Prop where
  /-- A carriage return in front of a line end. -/
  | lineEnd (before after : List Char) :
      Edit (before ++ '\n' :: after) (before ++ '\r' :: '\n' :: after)
  /-- Spaces and tabs between tokens, which includes the ends of lines. -/
  | blanks {before after run : List Char} {pieces : List Piece} (hcut : Cut (before ++ after) pieces)
      (hgap : Gap pieces before after) (hrun : ∀ c ∈ run, c = ' ' ∨ c = '\t') :
      Edit (before ++ after) (before ++ (run ++ after))
  /-- A comment at the end of a line. -/
  | comment {before after words : List Char} (hline : LineTail after) (hwords : ∀ c ∈ words, c ≠ '\n') :
      Edit (before ++ after) (before ++ (';' :: words ++ after))
  /-- A mnemonic, a directive or a register in another case. -/
  | letters {text word word' : List Char} {front back : List Piece} {kind : Token.Kind}
      {lines : List Grammar.Line} (hcut : Cut text (front ++ ⟨word, some kind⟩ :: back))
      (hlines : lines.map Grammar.Line.tokens =
        (Piece.placed .first (front ++ ⟨word, some kind⟩ :: back)).splitOnP (fun t => t.kind = .newline))
      (hkeyword : ⟨kind, Position.first.after (Piece.flat front)⟩ ∈ lines.flatMap Grammar.Line.keywords)
      (hletters : SameLetters word word') : Edit text (Piece.flat front ++ (word' ++ Piece.flat back))

/-- The same statements on the same lines. -/
def SameStatements (statements statements' : List Statement) : Prop :=
  List.Forall₂ (Statement.Matches (fun p q => q.line = p.line)) statements statements'

/-- Texts with the same tokens say the same. -/
theorem parse_of_kinds {source edited : String} {pieces pieces' : List Piece} {statements : List Statement}
    (hparse : parse source = .ok statements) (h : Cut source.toList pieces)
    (h' : Cut edited.toList pieces') (hkinds : Piece.kinds pieces' = Piece.kinds pieces) :
    ∃ statements', parse edited = .ok statements' ∧ SameStatements statements statements' := by
  rw [parse_of_cut h] at hparse
  rw [parse_of_cut h']
  exact parseLines_of_matches (matches_of_cuts h h' hkinds .first) hparse

/-- An idle insertion between tokens keeps what a text says. -/
theorem parse_of_insertion {before after inserted : List Char} {pieces : List Piece}
    {statements : List Statement} (hparse : parse (String.ofList (before ++ after)) = .ok statements)
    (hcut : Cut (before ++ after) pieces) (hgap : Gap pieces before after) (hidle : Idle inserted after) :
    ∃ statements', parse (String.ofList (before ++ (inserted ++ after))) = .ok statements' ∧
      SameStatements statements statements' := by
  obtain ⟨pieces', hcut', hkinds⟩ := hcut.insert hgap hidle
  rw [← String.toList_ofList (l := before ++ after)] at hcut
  rw [← String.toList_ofList (l := before ++ (inserted ++ after))] at hcut'
  exact parse_of_kinds hparse hcut hcut' hkinds

/-- A text says what its lines derive. -/
theorem parse_of_lines {source : String} {pieces : List Piece} {lines : List Grammar.Line}
    (hcut : Cut source.toList pieces) (hlines : lines.map Grammar.Line.tokens =
      (Piece.placed .first pieces).splitOnP (fun t => t.kind = .newline)) :
    parse source = .ok (lines.flatMap Grammar.Line.statements) := by
  rw [parse_of_cut hcut]
  exact parseLines_lines_iff.mpr ⟨lines, hlines, rfl⟩

/-- A keyword in another case keeps what a text says, and where it says it. -/
theorem parse_of_respelling {text word word' : List Char} {front back : List Piece} {kind : Token.Kind}
    {lines : List Grammar.Line} {statements : List Statement}
    (hparse : parse (String.ofList text) = .ok statements)
    (hcut : Cut text (front ++ ⟨word, some kind⟩ :: back))
    (hlines : lines.map Grammar.Line.tokens =
      (Piece.placed .first (front ++ ⟨word, some kind⟩ :: back)).splitOnP (fun t => t.kind = .newline))
    (hkeyword : ⟨kind, Position.first.after (Piece.flat front)⟩ ∈ lines.flatMap Grammar.Line.keywords)
    (hletters : SameLetters word word') :
    parse (String.ofList (Piece.flat front ++ (word' ++ Piece.flat back))) = .ok statements := by
  have hplaced : ∀ (w : List Char) (k : Token.Kind), Piece.placed .first (front ++ ⟨w, some k⟩ :: back) =
      Piece.placed .first front ++ ⟨k, Position.first.after (Piece.flat front)⟩ ::
        Piece.placed ((Position.first.after (Piece.flat front)).after w) back :=
    fun w k => Piece.placed_append .first front _
  obtain ⟨line, -, hline⟩ := List.mem_flatMap.mp hkeyword
  obtain ⟨kind', hkind, hcut'⟩ := hcut.respelled hletters (Grammar.Line.isKeyword hline)
  have hnodup := hcut.nodup_placed .first
  rw [← String.toList_ofList (l := text)] at hcut
  rw [parse_of_lines hcut hlines] at hparse
  rw [hplaced] at hnodup hlines
  obtain ⟨lines', hlines', hstatements⟩ := respelled_lines hnodup hlines hkeyword hkind
  rw [← hletters.after, ← hplaced] at hlines'
  rw [← String.toList_ofList (l := Piece.flat front ++ _)] at hcut'
  rw [parse_of_lines hcut' hlines', hstatements]
  exact hparse

theorem sameStatements_refl (statements : List Statement) : SameStatements statements statements :=
  List.forall₂_same.mpr (fun _ _ => ⟨rfl, rfl⟩)

theorem SameStatements.trans {first second third : List Statement} (h : SameStatements first second)
    (h' : SameStatements second third) : SameStatements first third := by
  induction h generalizing third with
  | nil => exact h'
  | cons hs _ ih =>
      obtain ⟨s, others, hs', hothers, rfl⟩ := List.forall₂_cons_left_iff.mp h'
      exact .cons ⟨hs'.body.trans hs.body, hs'.position.trans hs.position⟩ (ih hothers)

/-- What one edit keeps. -/
theorem Edit.keeps_statements {text text' : List Char} (h : Edit text text')
    {statements : List Statement} (hparse : parse (String.ofList text) = .ok statements) :
    ∃ statements', parse (String.ofList text') = .ok statements' ∧
      SameStatements statements statements' := by
  have hsome : ∃ pieces, Cut text pieces := by
    obtain ⟨pieces, hcut, -⟩ := parse_eq_ok_iff.mp hparse
    rw [String.toList_ofList] at hcut
    exact ⟨pieces, hcut⟩
  cases h with
  | lineEnd before after =>
      obtain ⟨pieces, hcut⟩ := hsome
      have hline : LineTail ('\n' :: after) := ⟨[], _, rfl, by simp, Or.inr rfl⟩
      have hidle : Idle ['\r'] ('\n' :: after) := idle_blanks (List.all_eq_true.mp rfl) _
      have hsame := parse_of_insertion hparse hcut (hcut.gap_of_lineTail hline) hidle
      rw [List.singleton_append] at hsame
      exact hsame
  | @blanks before after run pieces hcut hgap hrun =>
      refine parse_of_insertion hparse hcut hgap (idle_blanks (fun c hc => ?_) after)
      rcases hrun c hc with rfl | rfl <;> rfl
  | comment hline hwords =>
      obtain ⟨pieces, hcut⟩ := hsome
      exact parse_of_insertion hparse hcut (hcut.gap_of_lineTail hline) (idle_comment hwords hline)
  | letters hcut hlines hkeyword hletters =>
      exact ⟨statements, parse_of_respelling hparse hcut hlines hkeyword hletters,
        sameStatements_refl statements⟩

/-- What edits keep. -/
theorem keeps_statements {text text' : List Char} (h : Relation.ReflTransGen Edit text text')
    {statements : List Statement} (hparse : parse (String.ofList text) = .ok statements) :
    ∃ statements', parse (String.ofList text') = .ok statements' ∧
      SameStatements statements statements' := by
  induction h with
  | refl => exact ⟨statements, hparse, sameStatements_refl statements⟩
  | tail _ hedit ih =>
      obtain ⟨between, hbetween, hsame⟩ := ih
      obtain ⟨statements', hparse', hsame'⟩ := hedit.keeps_statements hbetween
      exact ⟨statements', hparse', hsame.trans hsame'⟩

-- ── What is assembled ───────────────────────────────────────────────────────

end Asm6502.Source

namespace Asm6502

/-- A fault without the column of its statement. -/
def Fault.onLine : Fault → Fault
  | .located p cause => .located ⟨p.line, 0⟩ cause
  | fault => fault

/-- An outcome without the column of a fault. -/
def Action.blurred {σ α : Type} (result : Except Fault α × σ) : Except Fault α × σ :=
  (result.1.mapError Fault.onLine, result.2)

/-- Two actions that do the same, up to the columns of their faults. -/
def Action.Alike {σ α : Type} (first second : Action σ α) : Prop :=
  ∀ s, blurred (second.exec s) = blurred (first.exec s)

namespace Action.Alike

variable {σ α β : Type}

theorem refl (action : Action σ α) : Alike action action := fun _ => rfl

theorem bind {first first' : Action σ α} {next next' : α → Action σ β} (h : Alike first first')
    (hnext : ∀ a, Alike (next a) (next' a)) : Alike (first >>= next) (first' >>= next') := by
  intro s
  have hs := h s
  rw [exec_bind, exec_bind]
  generalize first.exec s = result at hs ⊢
  generalize first'.exec s = result' at hs ⊢
  obtain ⟨outcome, t⟩ := result
  obtain ⟨outcome', t'⟩ := result'
  obtain ⟨houtcome, rfl⟩ := Prod.mk.inj hs
  cases outcome with
  | ok a =>
      cases outcome' with
      | ok a' =>
          obtain rfl := Except.ok.inj houtcome
          exact hnext a' t'
      | error fault' => cases houtcome
  | error fault =>
      cases outcome' with
      | ok a' => cases houtcome
      | error fault' => exact congrArg (fun f => (Except.error f, t')) (Except.error.inj houtcome)

theorem each {γ δ : Type} {R : γ → δ → Prop} {step : γ → Action σ Unit} {step' : δ → Action σ Unit}
    (hstep : ∀ a b, R a b → Alike (step a) (step' b)) {list : List γ} {list' : List δ}
    (h : List.Forall₂ R list list') : Alike (Action.each step list) (Action.each step' list') := by
  induction h with
  | nil => exact refl _
  | cons hab _ ih => exact bind (hstep _ _ hab) (fun _ => ih)

end Action.Alike

theorem Assembly.alike_bothPasses {program program' : Assembly Unit} (h : Action.Alike program program') :
    Action.Alike (bothPasses program) (bothPasses program') :=
  h.bind (fun _ => (Action.Alike.refl turnOver).bind (fun discovery =>
    h.bind (fun _ => Action.Alike.refl (conclude discovery))))

theorem blurred_compile {program program' : Assembly Unit} (h : Action.Alike program program')
    (options : Options) :
    Action.blurred (compile program' options) = Action.blurred (compile program options) := by
  unfold compile
  cases Session.create options.withStart with
  | error fault => rfl
  | ok session =>
      have hboth := Assembly.alike_bothPasses h session
      exact congrArg (fun result => (result.1, result.2.journal)) hboth

end Asm6502

namespace Asm6502.Source

/-- The same statement on the same line does the same. -/
theorem Statement.alike_run {s s' : Statement} (h : s.Matches (fun p q => q.line = p.line) s') :
    Action.Alike s.run s'.run := by
  intro session
  obtain ⟨body, position⟩ := s
  obtain ⟨body', position'⟩ := s'
  obtain rfl : body' = body := h.body
  have hline : position'.line = position.line := h.position
  have hfault : ∀ fault, (atStatement position' fault).onLine = (atStatement position fault).onLine := by
    intro fault
    unfold atStatement
    split
    · rfl
    · rw [Fault.onLine, Fault.onLine, hline]
  rw [exec_run, exec_run]
  generalize body'.run.exec session = result
  obtain ⟨outcome, after⟩ := result
  cases outcome with
  | ok _ => rfl
  | error fault => exact congrArg (fun f => (Except.error f, after)) (hfault fault)

/-- Edited text has the same statements on the same lines, and is compiled to the same result. -/
theorem edited_text_means_the_same {source edited : String} {statements : List Statement}
    (hedits : Relation.ReflTransGen Edit source.toList edited.toList)
    (hparse : parse source = .ok statements) :
    (∃ statements', parse edited = .ok statements' ∧ SameStatements statements statements') ∧
      ∀ options, Action.blurred (assemble edited options) = Action.blurred (assemble source options) := by
  rw [← String.ofList_toList (s := source)] at hparse
  obtain ⟨statements', hparse', hsame⟩ := keeps_statements hedits hparse
  rw [String.ofList_toList] at hparse hparse'
  refine ⟨⟨statements', hparse', hsame⟩, fun options => ?_⟩
  unfold assemble
  rw [hparse, hparse']
  have hrun : Action.Alike (runAll statements) (runAll statements') :=
    Action.Alike.each (fun s s' hs => Statement.alike_run hs) hsame
  exact blurred_compile hrun options

/-- An instruction with an index register, and one without an operand. -/
def terseText : String := "lda 1,x\nrts"

/-- The same with a mnemonic in upper case, a blank, a carriage return and a comment. -/
def looseText : String := "LDA 1, x\r\nrts;done"

/-- The pieces of the terse text behind its first word. -/
def tersePieces : List Piece :=
  [⟨[' '], none⟩, ⟨['1'], some (.number (.ofDigits 10 ['1']))⟩, ⟨[','], some .comma⟩,
    ⟨['x'], some (.identifier "x")⟩, .lineEnd, ⟨['r', 't', 's'], some (.identifier "rts")⟩]

def terseLines : List Grammar.Line :=
  [⟨[], some (.instruction .lda "lda" rfl ⟨1, 1⟩ (some (.indexed
      ⟨.number (.ofDigits 10 ['1']) ⟨1, 5⟩, []⟩ ⟨1, 6⟩ .x ⟨"x", ⟨1, 7⟩, rfl⟩)))⟩,
    ⟨[], some (.instruction .rts "rts" rfl ⟨2, 1⟩ none)⟩]

theorem cut_terse {word : List Char} {kind : Token.Kind} (hword : Spelled kind word prolongsName) :
    Cut (word ++ " 1,x\nrts".toList) (⟨word, some kind⟩ :: tersePieces) := by
  have hrts : Spelled (.identifier "rts") ['r', 't', 's'] prolongsName :=
    .name rfl (List.all_eq_true.mp rfl)
  have hx : Spelled (.identifier "x") ['x'] prolongsName := .name rfl (List.all_eq_true.mp rfl)
  have hcomma : Spelled .comma [','] never := .punctuation rfl
  have hone : Spelled (.number (.ofDigits 10 ['1'])) ['1'] (isDigitIn 10) :=
    .decimal rfl (List.all_eq_true.mp rfl)
  refine .token hword (stops_cons rfl _) (.blank rfl ?_)
  refine .token hone (stops_cons rfl _) (.token hcomma (stops_never _) ?_)
  refine .token hx (stops_cons rfl _) (.token .newline (stops_never _) ?_)
  exact .token hrts (stops_nil _) .done

theorem edits_terse : Relation.ReflTransGen Edit terseText.toList looseText.toList := by
  have hlower : Spelled (.identifier "lda") ['l', 'd', 'a'] prolongsName :=
    .name rfl (List.all_eq_true.mp rfl)
  have hupper : Spelled (.identifier "LDA") ['L', 'D', 'A'] prolongsName :=
    .name rfl (List.all_eq_true.mp rfl)
  have hlines : terseLines.map Grammar.Line.tokens = (Piece.placed .first
      ([] ++ ⟨['l', 'd', 'a'], some (.identifier "lda")⟩ :: tersePieces)).splitOnP
        (fun t => t.kind = .newline) := rfl
  have hsame : SameLetters ['l', 'd', 'a'] ['L', 'D', 'A'] := rfl
  have hletters : Edit "lda 1,x\nrts".toList "LDA 1,x\nrts".toList :=
    .letters (cut_terse hlower) hlines (List.mem_cons_self ..) hsame
  have hcut : Cut ("LDA 1,".toList ++ "x\nrts".toList)
      (⟨['L', 'D', 'A'], some (.identifier "LDA")⟩ :: tersePieces) := cut_terse hupper
  have hgap : Gap (⟨['L', 'D', 'A'], some (.identifier "LDA")⟩ :: tersePieces) "LDA 1,".toList
      "x\nrts".toList := .later _ (.later _ (.later _ (.later _ (.here _))))
  have hrun : ∀ c ∈ [' '], c = ' ' ∨ c = '\t' := by simp
  have hblanks : Edit "LDA 1,x\nrts".toList "LDA 1, x\nrts".toList := .blanks hcut hgap hrun
  have hline : Edit "LDA 1, x\nrts".toList "LDA 1, x\r\nrts".toList :=
    .lineEnd "LDA 1, x".toList "rts".toList
  have hplain : '\n' ∉ "done".toList := by decide
  have hwords : ∀ c ∈ "done".toList, c ≠ '\n' := fun c hc h => hplain (h ▸ hc)
  have hcomment : Edit ("LDA 1, x\r\nrts".toList ++ []) looseText.toList :=
    .comment ⟨[], [], rfl, by simp, Or.inl rfl⟩ hwords
  exact .tail (.tail (.tail (.single hletters) hblanks) hline) hcomment

theorem parse_terse : parse terseText = .ok (terseLines.flatMap Grammar.Line.statements) := by
  have hlower : Spelled (.identifier "lda") ['l', 'd', 'a'] prolongsName :=
    .name rfl (List.all_eq_true.mp rfl)
  exact parse_of_lines (cut_terse hlower) rfl

theorem loose_text_means_the_same :
    (Relation.ReflTransGen Edit terseText.toList looseText.toList ∧
        parse terseText = .ok (terseLines.flatMap Grammar.Line.statements)) ∧
      (∃ statements, parse looseText = .ok statements ∧
        SameStatements (terseLines.flatMap Grammar.Line.statements) statements) ∧
      ∀ options, Action.blurred (assemble looseText options) = Action.blurred (assemble terseText options) :=
  ⟨⟨edits_terse, parse_terse⟩, edited_text_means_the_same edits_terse parse_terse⟩

end Asm6502.Source
