import Asm6502.Proofs.Scanning

/-!
# Texts cut into tokens

The texts that are cut into tokens, blanks and comments. This does not say how the cuts are found; the
scanner finds them.

* `Cut`: a text is cut into pieces, each a token or layout.
* `scan_of_cut`, `exists_cut_of_scan`: the scanner finds a cut exactly if there is one.
* `parse_of_cut`, `parse_eq_ok_iff`: a text is parsed by its cut.
* `Cut.append_newline`, `Cut.of_append_newline`: cuts end with the line.
-/

namespace Asm6502.Source

-- ── Texts cut into pieces ───────────────────────────────────────────────────

/-- A piece of a text: a token as it is written, or layout, which is no token. -/
structure Piece where
  text : List Char
  kind : Option Token.Kind

namespace Piece

/-- The text of pieces. -/
def flat (pieces : List Piece) : List Char := pieces.flatMap text

/-- The kinds of the tokens among pieces. -/
def kinds (pieces : List Piece) : List Token.Kind := pieces.filterMap kind

/-- The tokens of pieces of which the first begins at a position. -/
def placed (p : Position) : List Piece → List Token
  | [] => []
  | piece :: rest => (piece.kind.map (fun kind => ⟨kind, p⟩)).toList ++ placed (p.after piece.text) rest

theorem flat_cons (piece : Piece) (pieces : List Piece) :
    flat (piece :: pieces) = piece.text ++ flat pieces := List.flatMap_cons

theorem flat_append (pieces later : List Piece) : flat (pieces ++ later) = flat pieces ++ flat later :=
  List.flatMap_append

end Piece

/-- A text is cut into tokens, which are as long as possible, blanks and comments. -/
inductive Cut : List Char → List Piece → Prop where
  | done : Cut [] []
  | blank {c : Char} {rest : List Char} {pieces : List Piece} (hc : isLineBlank c = true)
      (hrest : Cut rest pieces) : Cut (c :: rest) (⟨[c], none⟩ :: pieces)
  | comment {words rest : List Char} {pieces : List Piece} (hwords : ∀ c ∈ words, c ≠ '\n')
      (hends : LineEnds rest) (hrest : Cut rest pieces) :
      Cut (';' :: (words ++ rest)) (⟨';' :: words, none⟩ :: pieces)
  | token {kind : Token.Kind} {word rest : List Char} {follow : Char → Bool} {pieces : List Piece}
      (hword : Spelled kind word follow) (hstops : Stops follow rest) (hrest : Cut rest pieces) :
      Cut (word ++ rest) (⟨word, some kind⟩ :: pieces)

theorem Cut.flat {text : List Char} {pieces : List Piece} (h : Cut text pieces) :
    Piece.flat pieces = text := by
  induction h with
  | done => rfl
  | blank _ _ ih => exact congrArg _ ih
  | comment _ _ _ ih => exact congrArg (fun rest => ';' :: (_ ++ rest)) ih
  | token _ _ _ ih => exact congrArg _ ih

-- ── The scanner finds the cut ───────────────────────────────────────────────

theorem map_push_none (p : Position) (result : Except Fault TokenStream) :
    result.map (·.push none p) = result := by
  cases result <;> rfl

theorem scan_of_cut {text : List Char} {pieces : List Piece} (h : Cut text pieces) (p : Position) :
    scan p text = .ok ⟨Piece.placed p pieces, p.after text⟩ := by
  induction h generalizing p with
  | done => exact scan_nil p
  | @blank c rest _ hc _ ih =>
      have hheads : Heads none [c] rest := .blanks (List.cons_ne_nil c []) (List.forall_mem_singleton.mpr hc)
      rw [← List.singleton_append, scan_of_heads hheads, map_push_none, ih, ← Position.after_append]
      rfl
  | @comment words rest _ hwords hends _ ih =>
      rw [← List.cons_append, scan_of_heads (.comment hwords hends), map_push_none, ih,
        ← Position.after_append]
      rfl
  | token hword hstops _ ih =>
      rw [scan_of_heads (.token hword hstops), ih, ← Position.after_append]
      rfl

/-- Blanks in front of a text that is cut. -/
theorem Cut.blanks {run rest : List Char} {pieces : List Piece}
    (hrun : ∀ c ∈ run, isLineBlank c = true) (h : Cut rest pieces) :
    Cut (run ++ rest) (run.map (fun c => ⟨[c], none⟩) ++ pieces) := by
  induction run with
  | nil => exact h
  | cons c run ih =>
      obtain ⟨hc, hrun⟩ := List.forall_mem_cons.mp hrun
      exact .blank hc (ih hrun)

/-- A first lexeme before what is cut. -/
theorem Cut.of_heads {kind : Option Token.Kind} {word rest : List Char} {pieces : List Piece}
    (h : Heads kind word rest) (hrest : Cut rest pieces) : ∃ all, Cut (word ++ rest) all := by
  cases h with
  | token hword hstops => exact ⟨_, .token hword hstops hrest⟩
  | blanks _ hrun => exact ⟨_, .blanks hrun hrest⟩
  | comment hwords hends => exact ⟨_, .comment hwords hends hrest⟩

theorem exists_cut_of_scan {p : Position} {text : List Char} {stream : TokenStream}
    (h : scan p text = .ok stream) : ∃ pieces, Cut text pieces := by
  induction p, text using scan_induction generalizing stream with
  | nil p => exact ⟨[], .done⟩
  | fails p text problem _ hfails =>
      rw [hfails] at h
      cases h
  | reads p kind word rest hheads ih =>
      rw [scan_of_heads hheads] at h
      obtain ⟨later, hlater⟩ := Check.exists_of_map h
      obtain ⟨pieces, hpieces⟩ := ih hlater
      exact Cut.of_heads hheads hpieces

/-- The scanner finds the cut of a text, if it has one, and fails if it has none. -/
theorem scan_eq_ok_iff {p : Position} {text : List Char} {stream : TokenStream} :
    scan p text = .ok stream ↔
      ∃ pieces, Cut text pieces ∧ stream = ⟨Piece.placed p pieces, p.after text⟩ := by
  constructor
  · intro h
    obtain ⟨pieces, hcut⟩ := exists_cut_of_scan h
    rw [scan_of_cut hcut] at h
    exact ⟨pieces, hcut, (Except.ok.inj h).symm⟩
  · rintro ⟨pieces, hcut, rfl⟩
    exact scan_of_cut hcut p

/-- A text is parsed by its cut. -/
theorem parse_of_cut {source : String} {pieces : List Piece} (h : Cut source.toList pieces) :
    parse source = parseLines
      (TokenStream.mk (Piece.placed .first pieces) (Position.first.after source.toList)).lines := by
  unfold parse
  rw [tokenize_eq_scan, scan_of_cut h]
  rfl

theorem parse_eq_ok_iff {source : String} {statements : List Statement} :
    parse source = .ok statements ↔
      ∃ pieces, Cut source.toList pieces ∧
        parseLines (TokenStream.mk (Piece.placed .first pieces) (Position.first.after source.toList)).lines =
          .ok statements := by
  constructor
  · intro h
    obtain ⟨stream, hscan, -⟩ := Check.bind_eq_ok h
    obtain ⟨pieces, hcut⟩ := exists_cut_of_scan hscan
    exact ⟨pieces, hcut, (parse_of_cut hcut).symm.trans h⟩
  · rintro ⟨pieces, hcut, hparse⟩
    exact (parse_of_cut hcut).trans hparse

-- ── Cuts and lines ──────────────────────────────────────────────────────────

theorem not_prolongs_of_ofPunctuation? {c : Char} {kind : Token.Kind}
    (h : Token.Kind.ofPunctuation? c = some kind) : kind ≠ .newline ∧ prolongsName c = false := by
  unfold Token.Kind.ofPunctuation? at h
  split at h <;> cases h <;> exact ⟨by simp, by decide⟩

/-- Tokens are prolonged by nothing but characters of names and a colon. -/
theorem Spelled.stops {kind : Token.Kind} {word rest : List Char} {follow : Char → Bool}
    (h : Spelled kind word follow) (hrest : Stops prolongsName rest) : Stops follow rest := by
  intro c hc
  have hname := (Bool.or_eq_false_iff.mp (hrest c hc)).1
  have hdigit : ∀ base, isDigitIn base c = false := by
    intro base
    refine Bool.eq_false_iff.mpr (fun hbase => ?_)
    rw [isNameChar_of_isDigitIn hbase] at hname
    cases hname
  cases h with
  | hexadecimal _ _ => exact hdigit 16
  | binary _ _ => exact hdigit 2
  | decimal _ _ => exact hdigit 10
  | directive _ => exact hname
  | name _ _ => exact hrest c hc
  | _ => rfl

/-- A line end is a token of its own, and stands in no other. -/
theorem Spelled.eq_newline {kind : Token.Kind} {word : List Char} {follow : Char → Bool}
    (h : Spelled kind word follow) (hmem : '\n' ∈ word) : kind = .newline ∧ word = ['\n'] := by
  have hclass : ∀ {p : Char → Bool} {tail : List Char}, (∀ c ∈ tail, p c = true) → p '\n' = false →
      '\n' ∉ tail := by
    intro p tail htail hp hmem
    rw [htail _ hmem] at hp
    cases hp
  have hcons : ∀ {c : Char} {tail : List Char}, c ≠ '\n' → '\n' ∉ tail → '\n' ∉ c :: tail := by
    intro c tail hc htail hmem
    rcases List.mem_cons.mp hmem with rfl | hmem
    · exact hc rfl
    · exact htail hmem
  have hstart : ∀ {p : Char → Bool} {c : Char}, p c = true → p '\n' = false → c ≠ '\n' := by
    rintro p c hc hp rfl
    rw [hc] at hp
    cases hp
  cases h with
  | newline => exact ⟨rfl, rfl⟩
  | hexadecimal _ hdigits => exact absurd hmem (hcons (by decide) (hclass hdigits (by decide)))
  | binary _ hdigits => exact absurd hmem (hcons (by decide) (hclass hdigits (by decide)))
  | decimal hc hdigits =>
      exact absurd hmem (hcons (hstart hc (by decide)) (hclass hdigits (by decide)))
  | character hline _ =>
      refine absurd hmem (hcons (by decide) (hcons hline (hcons (by decide) ?_)))
      exact List.not_mem_nil
  | string hcontent =>
      refine absurd hmem (hcons (by decide) (fun hmem => ?_))
      rcases List.mem_append.mp hmem with hmem | hmem
      · exact (hcontent _ hmem).2 rfl
      · exact absurd (List.mem_singleton.mp hmem) (by decide)
  | directive hword => exact absurd hmem (hcons (by decide) (hclass hword (by decide)))
  | label hc htail =>
      refine absurd hmem (hcons (hstart hc (by decide)) (fun hmem => ?_))
      rcases List.mem_append.mp hmem with hmem | hmem
      · exact hclass htail (by decide) hmem
      · exact absurd (List.mem_singleton.mp hmem) (by decide)
  | name hc htail => exact absurd hmem (hcons (hstart hc (by decide)) (hclass htail (by decide)))
  | punctuation hc =>
      rw [← List.mem_singleton.mp hmem] at hc
      cases hc

/-- A line end, as a piece. -/
def Piece.lineEnd : Piece := ⟨['\n'], some .newline⟩

theorem LineEnds.append {rest more : List Char} (h : LineEnds rest) (h' : LineEnds more) :
    LineEnds (rest ++ more) := by
  rcases h with rfl | h
  · exact h'
  · obtain ⟨tail, rfl⟩ := List.head?_eq_some_iff.mp h
    exact Or.inr rfl

theorem LineEnds.of_append {rest more : List Char} (h : LineEnds (rest ++ more)) : LineEnds rest := by
  cases rest with
  | nil => exact Or.inl rfl
  | cons c rest => exact Or.inr (h.resolve_left (List.cons_ne_nil c (rest ++ more)))

/-- A text of two parts with a line end between them is cut as its parts are. -/
theorem Cut.append_newline {first second : List Char} {pieces later : List Piece}
    (h : Cut first pieces) (h' : Cut second later) :
    Cut (first ++ '\n' :: second) (pieces ++ .lineEnd :: later) := by
  have hends : ∀ rest, LineEnds ('\n' :: rest) := fun _ => Or.inr rfl
  induction h with
  | done => exact .token .newline (stops_never second) h'
  | blank hc _ ih => exact .blank hc ih
  | comment hwords hline _ ih =>
      rw [List.cons_append, List.append_assoc]
      exact .comment hwords (hline.append (hends second)) ih
  | token hword hstops _ ih =>
      rw [List.append_assoc]
      refine .token hword (hstops.append (hword.stops ?_)) ih
      exact stops_cons (by decide) second

/-- What stands before a line end begins with whatever has no line end at the front of the text. -/
theorem append_eq_append_newline {word rest first second : List Char} (hword : '\n' ∉ word)
    (h : word ++ rest = first ++ '\n' :: second) :
    ∃ tail, first = word ++ tail ∧ rest = tail ++ '\n' :: second := by
  rcases List.append_eq_append_iff.mp h with ⟨tail, hfirst, hrest⟩ | ⟨tail, rfl, hsecond⟩
  · exact ⟨tail, hfirst, hrest⟩
  · cases tail with
    | nil => exact ⟨[], (List.append_nil _).symm.trans (List.append_nil _).symm, hsecond.symm⟩
    | cons c tail =>
        obtain ⟨rfl, -⟩ := List.cons.inj hsecond
        exact absurd (List.mem_append_right first (List.mem_cons_self ..)) hword

theorem Cut.of_append_newline {first second : List Char} {pieces : List Piece}
    (h : Cut (first ++ '\n' :: second) pieces) :
    ∃ before later, Cut first before ∧ Cut second later ∧ pieces = before ++ .lineEnd :: later := by
  generalize htext : first ++ '\n' :: second = text at h
  induction h generalizing first with
  | done => exact absurd htext (by simp)
  | @blank c rest _ hc hrest ih =>
      have hplain : '\n' ∉ [c] := by
        intro hmem
        rw [← List.mem_singleton.mp hmem] at hc
        cases hc
      obtain ⟨tail, rfl, rfl⟩ := append_eq_append_newline hplain htext.symm
      obtain ⟨before, later, hbefore, hlater, rfl⟩ := ih rfl
      exact ⟨_, later, .blank hc hbefore, hlater, rfl⟩
  | @comment words rest _ hwords hends hrest ih =>
      have hplain : '\n' ∉ ';' :: words := by
        intro hmem
        rcases List.mem_cons.mp hmem with hno | hmem
        · cases hno
        · exact hwords _ hmem rfl
      obtain ⟨tail, rfl, rfl⟩ := append_eq_append_newline hplain htext.symm
      obtain ⟨before, later, hbefore, hlater, rfl⟩ := ih rfl
      exact ⟨_, later, .comment hwords hends.of_append hbefore, hlater, rfl⟩
  | @token kind word rest follow _ hword hstops hrest ih =>
      by_cases hmem : '\n' ∈ word
      · -- the line end between the parts, or one that stands at the front of the first part
        obtain ⟨rfl, rfl⟩ := hword.eq_newline hmem
        cases first with
        | nil =>
            obtain ⟨-, rfl⟩ := List.cons.inj htext
            exact ⟨[], _, .done, hrest, rfl⟩
        | cons c first =>
            obtain ⟨rfl, rfl⟩ := List.cons.inj htext
            obtain ⟨before, later, hbefore, hlater, rfl⟩ := ih rfl
            exact ⟨_, later, .token .newline (stops_never first) hbefore, hlater, rfl⟩
      · obtain ⟨tail, rfl, rfl⟩ := append_eq_append_newline hmem htext.symm
        obtain ⟨before, later, hbefore, hlater, rfl⟩ := ih rfl
        exact ⟨_, later, .token hword hstops.of_append hbefore, hlater, rfl⟩

end Asm6502.Source
