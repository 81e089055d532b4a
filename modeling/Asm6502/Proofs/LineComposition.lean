import Asm6502.Proofs.Placement

/-!
# Texts line by line

No token and no statement goes over a line end. So a text of two parts, with a line end between them, is
parsed exactly if its parts are, to the statements of the first part and then those of the second part,
further down.

* `Position.down`: the same column some lines below.
* `parseLines_append_newline`: tokens of two parts.
* `parse_append_newline`: texts of two parts.
-/

namespace Asm6502.Source

-- ── Further down ────────────────────────────────────────────────────────────

/-- The same column, some lines below. -/
def Position.down (p : Position) (lines : Nat) : Position := ⟨p.line + lines, p.column⟩

def Token.down (t : Token) (lines : Nat) : Token := ⟨t.kind, t.position.down lines⟩

def Statement.down (s : Statement) (lines : Nat) : Statement := ⟨s.body, s.position.down lines⟩

theorem Position.next_down (p : Position) (lines : Nat) (c : Char) :
    (p.down lines).next c = (p.next c).down lines := by
  unfold Position.next
  split
  · exact congrArg (Position.mk · 1) (by simp only [down]; omega)
  · rfl

theorem Position.after_down (p : Position) (lines : Nat) (cs : List Char) :
    (p.down lines).after cs = (p.after cs).down lines := by
  induction cs generalizing p with
  | nil => rfl
  | cons c cs ih => rw [after_cons, after_cons, next_down, ih]

/-- After a line end, the text goes on as it began. -/
theorem Position.after_newline (cs : List Char) :
    first.after (cs ++ ['\n']) = first.down (1 + cs.count '\n') := by
  rw [after_append, after_cons, after_nil, next, if_pos rfl, line_after]
  exact congrArg (Position.mk · 1) (by simp only [first]; omega)

theorem Piece.placed_down (p : Position) (lines : Nat) (pieces : List Piece) :
    placed (p.down lines) pieces = (placed p pieces).map (·.down lines) := by
  induction pieces generalizing p with
  | nil => rfl
  | cons piece pieces ih =>
      rw [placed, placed, Position.after_down, ih, List.map_append]
      cases piece.kind <;> rfl

-- ── Statements further down ─────────────────────────────────────────────────

theorem matches_down (tokens : List Token) (lines : Nat) :
    List.Forall₂ (Token.Matches (fun p q => q = p.down lines)) tokens (tokens.map (·.down lines)) := by
  rw [List.forall₂_map_right_iff, List.forall₂_same]
  intro t _
  exact ⟨rfl, rfl⟩

theorem eq_map_down {statements statements' : List Statement} {lines : Nat}
    (h : List.Forall₂ (Statement.Matches (fun p q => q = p.down lines)) statements statements') :
    statements' = statements.map (·.down lines) := by
  induction h with
  | nil => rfl
  | @cons s s' _ _ hs _ ih =>
      have hdown : s' = s.down lines := congr (congrArg Statement.mk hs.body) hs.position
      rw [hdown, ih, List.map_cons]

/-- Tokens further down make statements further down. -/
theorem parseLines_down {tokens : List Token} {lines : Nat} {statements : List Statement}
    (stop stop' : Position) :
    parseLines (TokenStream.mk (tokens.map (·.down lines)) stop').lines = .ok statements ↔
      ∃ above, parseLines (TokenStream.mk tokens stop).lines = .ok above ∧
        statements = above.map (·.down lines) := by
  constructor
  · intro h
    have hmatches : List.Forall₂ (Token.Matches (fun p q => p = q.down lines))
        (tokens.map (·.down lines)) tokens :=
      (matches_down tokens lines).flip.imp (fun _ _ ht => ⟨ht.kind.symm, ht.position⟩)
    have habove : ∃ above, parseLines (TokenStream.mk tokens stop).lines = .ok above ∧
        List.Forall₂ (Statement.Matches (fun p q => p = q.down lines)) statements above :=
      parseLines_of_matches hmatches h
    obtain ⟨above, hparse, hall⟩ := habove
    exact ⟨above, hparse, eq_map_down (hall.flip.imp (fun _ _ hs => ⟨hs.body.symm, hs.position⟩))⟩
  · rintro ⟨above, habove, rfl⟩
    have hbelow : ∃ below,
        parseLines (TokenStream.mk (tokens.map (·.down lines)) stop').lines = .ok below ∧
        List.Forall₂ (Statement.Matches (fun p q => q = p.down lines)) above below :=
      parseLines_of_matches (matches_down tokens lines) habove
    obtain ⟨below, hparse, hall⟩ := hbelow
    rw [hparse, eq_map_down hall]

-- ── Two parts ───────────────────────────────────────────────────────────────

/-- A line end between tokens parts their lines, and so their statements. -/
theorem parseLines_append_newline {first second : List Token} {newline : Token}
    (hnewline : newline.kind = .newline) {statements : List Statement} (stop stop₁ stop₂ : Position) :
    parseLines (TokenStream.mk (first ++ newline :: second) stop).lines = .ok statements ↔
      ∃ above below, parseLines (TokenStream.mk first stop₁).lines = .ok above ∧
        parseLines (TokenStream.mk second stop₂).lines = .ok below ∧ statements = above ++ below := by
  have hsplit : (first ++ newline :: second).splitOnP (fun t => t.kind = .newline) =
      first.splitOnP (fun t => t.kind = .newline) ++ second.splitOnP (fun t => t.kind = .newline) :=
    List.splitOnP_append_cons first second (decide_eq_true hnewline)
  simp only [parseLines_lines_iff, hsplit]
  constructor
  · rintro ⟨lines, hlines, rfl⟩
    obtain ⟨above, below, rfl, habove, hbelow⟩ := List.map_eq_append_iff.mp hlines
    exact ⟨_, _, ⟨above, habove, rfl⟩, ⟨below, hbelow, rfl⟩, List.flatMap_append⟩
  · rintro ⟨_, _, ⟨above, habove, rfl⟩, ⟨below, hbelow, rfl⟩, rfl⟩
    exact ⟨above ++ below, by rw [List.map_append, habove, hbelow], List.flatMap_append⟩

/-- The tokens of two parts with a line end between them. -/
theorem placed_append_newline {first : List Char} {pieces : List Piece} (h : Cut first pieces)
    (later : List Piece) :
    Piece.placed .first (pieces ++ .lineEnd :: later) = Piece.placed .first pieces ++
      ⟨.newline, Position.first.after first⟩ ::
        (Piece.placed .first later).map (·.down (1 + first.count '\n')) := by
  rw [Piece.placed_append, h.flat, Piece.placed, ← Piece.placed_down, ← Position.after_newline,
    Position.after_append]
  rfl

/-- A text with a line end in it is parsed exactly if what stands before and what stands behind are, to
    the statements of both, the latter further down. -/
theorem parse_append_newline (first second : String) (statements : List Statement) :
    parse (first ++ "\n" ++ second) = .ok statements ↔
      ∃ above below, parse first = .ok above ∧ parse second = .ok below ∧
        statements = above ++ below.map (·.down (1 + first.toList.count '\n')) := by
  have htext : (first ++ "\n" ++ second).toList = first.toList ++ '\n' :: second.toList := by
    rw [String.toList_append, String.toList_append, List.append_assoc]
    rfl
  simp only [parse_eq_ok_iff, htext]
  constructor
  · rintro ⟨pieces, hcut, hparse⟩
    obtain ⟨before, later, hbefore, hlater, rfl⟩ := hcut.of_append_newline
    rw [placed_append_newline hbefore] at hparse
    obtain ⟨above, below, habove, hbelow, rfl⟩ :=
      (parseLines_append_newline rfl _ _ .first).mp hparse
    obtain ⟨below, hbelow, rfl⟩ := (parseLines_down _ .first).mp hbelow
    exact ⟨above, below, ⟨before, hbefore, habove⟩, ⟨later, hlater, hbelow⟩, rfl⟩
  · rintro ⟨above, below, ⟨before, hbefore, habove⟩, ⟨later, hlater, hbelow⟩, rfl⟩
    refine ⟨before ++ .lineEnd :: later, hbefore.append_newline hlater, ?_⟩
    rw [placed_append_newline hbefore]
    refine (parseLines_append_newline rfl _ _ .first).mpr ⟨above, _, habove, ?_, rfl⟩
    exact (parseLines_down _ .first).mpr ⟨below, hbelow, rfl⟩

end Asm6502.Source
