import Asm6502.Proofs.Rederivation
import Asm6502.Proofs.Spelling

/-!
# Where tokens stand

The tokens of a text that is cut stand in order, one behind the other, so no two of them share a position.
Only a line end has a line end in its text: the line of a token is the number of line ends before it, and
depends on nothing else.

* `Piece.pairwise_placed`: tokens in order.
* `exists_of_mem_placed`: what stands before a token.
* `matches_of_cuts`: the same tokens are on the same lines.
-/

namespace Asm6502.Source

-- ── Positions in order ──────────────────────────────────────────────────────

namespace Position

theorem line_after (p : Position) (cs : List Char) :
    (p.after cs).line = p.line + cs.count '\n' := by
  induction cs generalizing p with
  | nil => rfl
  | cons c cs ih =>
      rw [after_cons, ih, List.count_cons]
      unfold next
      split
      · rename_i hc
        rw [if_pos (beq_iff_eq.mpr hc)]
        simp only
        omega
      · rename_i hc
        rw [if_neg (fun h => hc (beq_iff_eq.mp h))]
        simp only
        omega

/-- The order in which positions come in a text. -/
def Precedes (p q : Position) : Prop := p.line < q.line ∨ p.line = q.line ∧ p.column < q.column

theorem Precedes.trans {p q r : Position} (h : p.Precedes q) (h' : q.Precedes r) : p.Precedes r := by
  unfold Precedes at *
  omega

theorem Precedes.ne {p q : Position} (h : p.Precedes q) : p ≠ q := by
  rintro rfl
  unfold Precedes at h
  omega

theorem precedes_next (p : Position) (c : Char) : p.Precedes (p.next c) := by
  unfold next
  split
  · exact Or.inl (Nat.lt_succ_self p.line)
  · exact Or.inr ⟨rfl, Nat.lt_add_of_pos_right (Text.width_pos c)⟩

theorem precedes_after {cs : List Char} (p : Position) (h : cs ≠ []) : p.Precedes (p.after cs) := by
  induction cs generalizing p with
  | nil => exact absurd rfl h
  | cons c cs ih =>
      rw [after_cons]
      cases cs with
      | nil => exact precedes_next p c
      | cons d cs => exact (precedes_next p c).trans (ih (p.next c) (List.cons_ne_nil d cs))

end Position

-- ── Tokens in order ─────────────────────────────────────────────────────────

namespace Piece

theorem placed_append (p : Position) (pieces later : List Piece) :
    placed p (pieces ++ later) = placed p pieces ++ placed (p.after (flat pieces)) later := by
  induction pieces generalizing p with
  | nil => rfl
  | cons piece pieces ih =>
      rw [List.cons_append, placed, placed, ih, List.append_assoc, flat_cons, Position.after_append]

/-- A token stands after the text of the pieces before it. -/
theorem exists_of_mem_placed {p : Position} {pieces : List Piece} {t : Token} (h : t ∈ placed p pieces) :
    ∃ front word back, pieces = front ++ ⟨word, some t.kind⟩ :: back ∧
      t.position = p.after (flat front) := by
  induction pieces generalizing p with
  | nil => cases h
  | cons piece pieces ih =>
      obtain ⟨text, kind⟩ := piece
      rw [placed] at h
      rcases List.mem_append.mp h with hfirst | hlater
      · cases kind with
        | none => cases hfirst
        | some kind =>
            obtain rfl := List.mem_singleton.mp hfirst
            exact ⟨[], text, pieces, rfl, rfl⟩
      · obtain ⟨front, word, back, rfl, hposition⟩ := ih hlater
        refine ⟨⟨text, kind⟩ :: front, word, back, rfl, ?_⟩
        rw [hposition, flat_cons, Position.after_append]

theorem pairwise_placed {p : Position} {pieces : List Piece} (h : ∀ piece ∈ pieces, piece.text ≠ []) :
    (placed p pieces).Pairwise (fun t t' => t.position.Precedes t'.position) := by
  induction pieces generalizing p with
  | nil => exact .nil
  | cons piece pieces ih =>
      obtain ⟨hpiece, hpieces⟩ := List.forall_mem_cons.mp h
      have hlater : ∀ t ∈ placed (p.after piece.text) pieces, p.Precedes t.position := by
        intro t ht
        obtain ⟨front, -, -, -, hposition⟩ := exists_of_mem_placed ht
        rw [hposition, ← Position.after_append]
        exact p.precedes_after (List.append_ne_nil_of_left_ne_nil hpiece _)
      rw [placed]
      cases piece.kind with
      | none => exact ih hpieces
      | some kind => exact .cons hlater (ih hpieces)

end Piece

theorem Cut.text_ne_nil {text : List Char} {pieces : List Piece} (h : Cut text pieces) :
    ∀ piece ∈ pieces, piece.text ≠ [] := by
  induction h with
  | done =>
      intro piece hpiece
      cases hpiece
  | blank _ _ ih => exact List.forall_mem_cons.mpr ⟨List.cons_ne_nil _ _, ih⟩
  | comment _ _ _ ih => exact List.forall_mem_cons.mpr ⟨List.cons_ne_nil _ _, ih⟩
  | token hword _ _ ih =>
      obtain ⟨c, tail, rfl⟩ := hword.exists_cons
      exact List.forall_mem_cons.mpr ⟨List.cons_ne_nil _ _, ih⟩

/-- No token occurs twice. -/
theorem Cut.nodup_placed {text : List Char} {pieces : List Piece} (h : Cut text pieces) (p : Position) :
    (Piece.placed p pieces).Nodup := by
  refine (Piece.pairwise_placed h.text_ne_nil).imp ?_
  rintro t t' hprecedes rfl
  exact hprecedes.ne rfl

-- ── Lines ───────────────────────────────────────────────────────────────────

/-- Kinds of tokens with the lines on which the tokens stand. -/
def kindsOnLines (line : Nat) : List Token.Kind → List (Token.Kind × Nat)
  | [] => []
  | kind :: kinds => (kind, line) :: kindsOnLines (if kind = .newline then line + 1 else line) kinds

theorem Position.line_after_of_not_mem {cs : List Char} (p : Position) (h : '\n' ∉ cs) :
    (p.after cs).line = p.line := by
  rw [line_after, List.count_eq_zero_of_not_mem h, Nat.add_zero]

theorem Spelled.line_after {kind : Token.Kind} {word : List Char} {follow : Char → Bool}
    (h : Spelled kind word follow) (p : Position) :
    (p.after word).line = if kind = .newline then p.line + 1 else p.line := by
  by_cases hmem : '\n' ∈ word
  · obtain ⟨rfl, rfl⟩ := h.eq_newline hmem
    rfl
  · have hkind : kind ≠ .newline := by
      rintro rfl
      cases h with
      | newline => exact hmem (List.mem_singleton_self _)
      | punctuation hc => exact (not_prolongs_of_ofPunctuation? hc).1 rfl
    rw [p.line_after_of_not_mem hmem, if_neg hkind]

theorem Cut.kindsOnLines_placed {text : List Char} {pieces : List Piece} (h : Cut text pieces)
    (p : Position) : (Piece.placed p pieces).map (fun t => (t.kind, t.position.line)) =
      kindsOnLines p.line (Piece.kinds pieces) := by
  induction h generalizing p with
  | done => rfl
  | @blank c rest pieces hc _ ih =>
      have hplain : '\n' ∉ [c] := by
        intro hmem
        rw [← List.mem_singleton.mp hmem] at hc
        cases hc
      rw [← p.line_after_of_not_mem hplain]
      exact ih _
  | @comment words rest pieces hwords _ _ ih =>
      have hplain : '\n' ∉ ';' :: words := by
        intro hmem
        rcases List.mem_cons.mp hmem with hno | hmem
        · cases hno
        · exact hwords _ hmem rfl
      rw [← p.line_after_of_not_mem hplain]
      exact ih _
  | @token kind word rest follow pieces hword _ _ ih =>
      have hlines := ih (p.after word)
      rw [hword.line_after] at hlines
      exact congrArg ((kind, p.line) :: ·) hlines

/-- Two texts with the same tokens have them on the same lines. -/
theorem matches_of_cuts {text text' : List Char} {pieces pieces' : List Piece} (h : Cut text pieces)
    (h' : Cut text' pieces') (hkinds : Piece.kinds pieces' = Piece.kinds pieces) (p : Position) :
    List.Forall₂ (Token.Matches (fun p q => q.line = p.line)) (Piece.placed p pieces)
      (Piece.placed p pieces') := by
  have hlines := h'.kindsOnLines_placed p
  rw [hkinds, ← h.kindsOnLines_placed p, ← List.forall₂_eq_eq_eq, List.forall₂_map_left_iff,
    List.forall₂_map_right_iff] at hlines
  refine hlines.flip.imp ?_
  intro t t' hsame
  obtain ⟨hkind, hline⟩ := Prod.mk.inj hsame
  exact ⟨hkind, hline⟩

end Asm6502.Source
