import Mathlib.Data.List.Induction
import Asm6502.Proofs.Lexemes

/-!
# Tokens by offsets

The scanner goes through the UTF-16 units of a source and carries a line and a column along. Here its tokens
are told without either: they stand at offsets that cut the units into lexemes, with nothing but layout
between them, and their positions are found by counting units.

* `Position.afterUnits`: a position by counting.
* `IsGap`: blanks, and possibly a comment up to the end of the line.
* `Extent.Holds`: the lexeme of a token, from an offset to another.
* `tokens_cover_source`: what a source is scanned to, told by offsets.
-/

namespace Asm6502

-- ── Stretches of units ──────────────────────────────────────────────────────

namespace Text

/-- The units from an offset up to another. -/
def between (units : List Nat) (first last : Nat) : List Nat := (units.drop first).take (last - first)

variable (units : List Nat)

theorem between_append_drop {first last : Nat} (h : first ≤ last) :
    between units first last ++ units.drop last = units.drop first := by
  have hdrop : units.drop last = (units.drop first).drop (last - first) := by
    rw [List.drop_drop, Nat.add_sub_cancel' h]
  rw [hdrop]
  exact List.take_append_drop _ _

theorem take_append_between {first last : Nat} (h : first ≤ last) :
    units.take first ++ between units first last = units.take last := by
  refine (List.append_left_inj (units.drop last)).mp ?_
  rw [List.append_assoc, between_append_drop units h, List.take_append_drop, List.take_append_drop]

theorem between_self (offset : Nat) : between units offset offset = [] := by
  rw [between, Nat.sub_self, List.take_zero]

theorem between_append {first middle last : Nat} (h : first ≤ middle) (h' : middle ≤ last) :
    between units first middle ++ between units middle last = between units first last := by
  refine (List.append_left_inj (units.drop last)).mp ?_
  rw [List.append_assoc, between_append_drop units h', between_append_drop units h,
    between_append_drop units (Nat.le_trans h h')]

/-- What stands at an offset, and behind it. -/
theorem between_of_drop {units word rest : List Nat} {offset : Nat}
    (h : units.drop offset = word ++ rest) :
    between units offset (offset + word.length) = word ∧ units.drop (offset + word.length) = rest := by
  constructor
  · rw [between, Nat.add_sub_cancel_left, h, List.take_left]
  · rw [← List.drop_drop, h, List.drop_left]

end Text

namespace Source

open Text (between unitChar)

-- ── Positions by counting ───────────────────────────────────────────────────

/-- The position after some units: its line is told by the line ends so far, its column by the units since
    the last of them. -/
def Position.afterUnits (units : List Nat) : Position :=
  ⟨1 + units.count 10, 1 + (units.reverse.takeWhile (· != 10)).length⟩

theorem Position.first_past (units : List Nat) : Position.first.past units = .afterUnits units := by
  induction units using List.reverseRecOn with
  | nil => rfl
  | append_singleton units u ih =>
      rw [Position.past_append, ih]
      show Position.step _ u = _
      unfold Position.step Position.afterUnits
      rw [show '\n'.toNat = 10 from rfl, List.count_append, List.reverse_append]
      by_cases hu : u = 10
      · rw [if_pos hu, hu]
        rfl
      · have hcount : [u].count 10 = 0 := List.count_eq_zero_of_not_mem (by simpa using Ne.symm hu)
        have hrun : ((u :: units.reverse).takeWhile (· != 10)).length =
            (units.reverse.takeWhile (· != 10)).length + 1 := by
          rw [List.takeWhile_cons, if_pos (bne_iff_ne.mpr hu), List.length_cons]
        rw [if_neg hu, hcount, List.reverse_singleton, List.singleton_append, hrun]
        rfl

/-- From an offset to another, the scanner passes over what stands between. -/
theorem Position.past_between (units : List Nat) {first last : Nat} (h : first ≤ last) :
    (Position.afterUnits (units.take first)).past (between units first last) =
      .afterUnits (units.take last) := by
  rw [← Position.first_past, ← Position.past_append, Text.take_append_between units h, Position.first_past]

-- ── Offsets ─────────────────────────────────────────────────────────────────

/-- The units before `rest` are blanks (spaces, tabs and carriage returns), and then possibly a comment, from
    a semicolon to the end of its line. -/
def IsGap (gap rest : List Nat) : Prop :=
  ∃ blanks comment, gap = blanks ++ comment ∧ (∀ u ∈ blanks, u = 32 ∨ u = 9 ∨ u = 13) ∧
    (comment = [] ∨ comment.head? = some 59 ∧ 10 ∉ comment ∧ (rest = [] ∨ rest.head? = some 10))

/-- Where a lexeme begins and where it ends. -/
structure Extent where
  start : Nat
  stop : Nat

/-- From an offset on there are the given lexemes, with nothing but layout between them. -/
def Separated (units : List Nat) : Nat → List Extent → Prop
  | offset, [] => IsGap (units.drop offset) []
  | offset, e :: later =>
    offset ≤ e.start ∧ IsGap (between units offset e.start) (units.drop e.start) ∧
      Separated units e.stop later

/-- A token with its lexeme: units that spell it, that spell nothing else, and that the next unit does not
    prolong. -/
structure Extent.Holds (units : List Nat) (e : Extent) (t : RawToken) : Prop where
  nonempty : e.start < e.stop
  inside : e.stop ≤ units.length
  spelled : ∃ follow, RawToken.Spelled t.kind (between units e.start e.stop) follow ∧
    ∀ u, (units.drop e.stop).head? = some u → follow (unitChar u) = false
  determined : ∀ {kind : RawToken.Kind} {follow : Char → Bool},
    RawToken.Spelled kind (between units e.start e.stop) follow → kind = t.kind
  position : t.position = .afterUnits (units.take e.start)

-- ── Layout ──────────────────────────────────────────────────────────────────

theorem isGap_nil (rest : List Nat) : IsGap [] rest :=
  ⟨[], [], rfl, fun _ h => absurd h List.not_mem_nil, Or.inl rfl⟩

/-- The blanks within a line, as units. -/
theorem isLineBlank_unitChar {u : Nat} : isLineBlank (unitChar u) = true ↔ u = 32 ∨ u = 9 ∨ u = 13 := by
  constructor
  · intro h
    have hascii := isAscii_isLineBlank _ h
    rw [eq_toNat_of_unitChar rfl hascii]
    unfold isLineBlank at h
    simp only [Bool.or_eq_true, beq_iff_eq] at h
    rcases h with (h | h) | h <;> rw [h] <;> decide
  · rintro (rfl | rfl | rfl) <;> rfl

theorem IsGap.blanks {run gap rest : List Nat} (hrun : ∀ u ∈ run, isLineBlank (unitChar u) = true)
    (h : IsGap gap rest) : IsGap (run ++ gap) rest := by
  obtain ⟨blanks, comment, rfl, hblanks, hcomment⟩ := h
  refine ⟨run ++ blanks, comment, (List.append_assoc ..).symm, ?_, hcomment⟩
  exact List.forall_mem_append.mpr ⟨fun u hu => isLineBlank_unitChar.mp (hrun u hu), hblanks⟩

/-- At the end of a line there is no more layout. -/
theorem IsGap.eq_nil {gap rest : List Nat} (h : IsGap gap rest) (hends : RawToken.LineEnds (gap ++ rest)) :
    gap = [] := by
  obtain ⟨blanks, comment, rfl, hblanks, hcomment⟩ := h
  rcases hends with hends | hends
  · exact (List.append_eq_nil_iff.mp hends).1
  · cases blanks with
    | cons u blanks =>
        obtain rfl := Option.some.inj hends
        rcases hblanks _ List.mem_cons_self with h | h | h <;> cases h
    | nil =>
        rcases hcomment with rfl | ⟨hhead, -, -⟩
        · rfl
        · obtain ⟨tail, rfl⟩ := List.head?_eq_some_iff.mp hhead
          cases hends

theorem IsGap.comment {words gap rest : List Nat} (hwords : '\n'.toNat ∉ words) (h : IsGap gap rest)
    (hends : RawToken.LineEnds (gap ++ rest)) : IsGap (';'.toNat :: words ++ gap) rest := by
  obtain rfl := h.eq_nil hends
  refine ⟨[], ';'.toNat :: words, List.append_nil _, fun _ h => absurd h List.not_mem_nil,
    Or.inr ⟨rfl, fun hmem => ?_, hends⟩⟩
  rcases List.mem_cons.mp hmem with hno | hmem
  · cases hno
  · exact hwords hmem

/-- The scanner passes over layout. -/
theorem scanUnits_gap {gap rest : List Nat} (h : IsGap gap rest) (p : Position) :
    scanUnits p (gap ++ rest) = scanUnits (p.past gap) rest := by
  obtain ⟨blanks, comment, rfl, hblanks, hcomment⟩ := h
  have hrun : ∀ u ∈ blanks, isLineBlank (unitChar u) = true :=
    fun u hu => isLineBlank_unitChar.mpr (hblanks u hu)
  rw [List.append_assoc, scanUnits_blanks hrun, Position.past_append]
  rcases hcomment with rfl | ⟨hhead, hline, hends⟩
  · rfl
  · obtain ⟨words, rfl⟩ := List.head?_eq_some_iff.mp hhead
    have hheads : RawToken.Heads none (';'.toNat :: words) rest :=
      .comment (fun hmem => hline (List.mem_cons_of_mem _ hmem)) hends
    refine (scanUnits_of_heads hheads (p.past blanks)).trans ?_
    show Except.map _ (scanUnits ((p.past blanks).past (59 :: words)) rest) = _
    cases scanUnits ((p.past blanks).past (59 :: words)) rest <;> rfl

/-- More layout in front. -/
theorem Separated.of_later {units : List Nat} {offset later : Nat} {extents : List Extent}
    (h : Separated units later extents) (hle : offset ≤ later)
    (hgap : ∀ gap rest, gap ++ rest = units.drop later → IsGap gap rest →
      IsGap (between units offset later ++ gap) rest) : Separated units offset extents := by
  cases extents with
  | nil =>
      have hall := hgap _ [] (List.append_nil _) h
      rwa [Text.between_append_drop units hle] at hall
  | cons e extents =>
      obtain ⟨hstart, hfirst, hrest⟩ := h
      have hall := hgap _ _ (Text.between_append_drop units hstart) hfirst
      rw [Text.between_append units hle hstart] at hall
      exact ⟨Nat.le_trans hle hstart, hall, hrest⟩

-- ── From the scanner to offsets ─────────────────────────────────────────────

/-- A spelling tells the token. -/
theorem RawToken.Spelled.kind_unique {kind kind' : RawToken.Kind} {word : List Nat}
    {follow follow' : Char → Bool} (h : RawToken.Spelled kind word follow)
    (h' : RawToken.Spelled kind' word follow') : kind = kind' := by
  obtain ⟨u, tail, rfl⟩ := h.exists_cons
  have hread := (lexeme_of_spelled h (stops_nil _)).symm.trans (lexeme_of_spelled h' (stops_nil _))
  exact Option.some.inj (Prod.mk.inj (Except.ok.inj hread)).1

/-- A spelling that nothing prolongs, as the lexeme of its token. -/
theorem RawToken.Spelled.holds {kind : RawToken.Kind} {units word rest : List Nat} {offset : Nat}
    {follow : Char → Bool} (h : RawToken.Spelled kind word follow)
    (hstops : Stops (fun u => follow (unitChar u)) rest) (hunits : units.drop offset = word ++ rest) :
    Extent.Holds units ⟨offset, offset + word.length⟩ ⟨kind, .afterUnits (units.take offset)⟩ := by
  obtain ⟨hword, hrest⟩ := Text.between_of_drop hunits
  obtain ⟨u, tail, htail⟩ := h.exists_cons
  have hlength : units.length - offset = word.length + rest.length := by
    rw [← List.length_drop, hunits, List.length_append]
  have hsome : word.length = tail.length + 1 := by rw [htail, List.length_cons]
  exact
    { nonempty := by
        show offset < offset + word.length
        omega
      inside := by
        show offset + word.length ≤ units.length
        omega
      spelled := by
        refine ⟨follow, ?_, ?_⟩
        · rwa [hword]
        · rwa [hrest]
      determined := by
        intro kind' follow' h'
        rw [hword] at h'
        exact h'.kind_unique h
      position := rfl }

/-- The tokens that are scanned from an offset on have extents. -/
theorem exists_extents {units : List Nat} {offset : Nat} {stream : RawStream}
    (h : scanUnits (.afterUnits (units.take offset)) (units.drop offset) = .ok stream) :
    (∃ extents, Separated units offset extents ∧ List.Forall₂ (Extent.Holds units) extents stream.tokens) ∧
      stream.stop = .afterUnits units := by
  -- the induction is on how many units are left
  induction hleft : units.length - offset using Nat.strongRecOn generalizing offset stream with
  | ind left ih =>
      by_cases hend : units.drop offset = []
      · rw [hend, scanUnits] at h
        obtain rfl := Except.ok.inj h
        refine ⟨⟨[], ?_, .nil⟩, ?_⟩
        · show IsGap _ _
          rw [hend]
          exact isGap_nil []
        · rw [List.take_of_length_le (List.drop_eq_nil_iff.mp hend)]
      · rcases scanUnits_cases (.afterUnits (units.take offset)) hend with ⟨problem, hfails⟩ |
          ⟨kind, word, rest, hunits, hheads⟩
        · rw [hfails] at h
          cases h
        · obtain ⟨hword, hrest⟩ := Text.between_of_drop hunits
          have hpast := Position.past_between units (Nat.le_add_right offset word.length)
          rw [hword] at hpast
          rw [hunits, scanUnits_of_heads hheads, hpast, ← hrest] at h
          have hshorter : units.length - (offset + word.length) < left := by
            have hlength := congrArg List.length hunits
            have hpos := List.length_pos_iff.mpr hheads.ne_nil
            rw [List.length_drop, List.length_append] at hlength
            omega
          obtain ⟨later, hlater⟩ := Check.exists_of_map h
          obtain ⟨⟨extents, hseparated, hholds⟩, hstop⟩ := ih _ hshorter hlater rfl
          rw [hlater] at h
          obtain rfl := Except.ok.inj h
          cases hheads with
          | token hspelled hstops =>
              refine ⟨⟨⟨offset, offset + word.length⟩ :: extents, ⟨Nat.le_refl _, ?_, hseparated⟩,
                .cons (hspelled.holds hstops hunits) hholds⟩, hstop⟩
              rw [Text.between_self]
              exact isGap_nil _
          | blanks _ hrun =>
              refine ⟨⟨extents, hseparated.of_later (Nat.le_add_right _ _) (fun gap more _ hgap => ?_),
                hholds⟩, hstop⟩
              rw [hword]
              exact hgap.blanks hrun
          | comment hwords hends =>
              refine ⟨⟨extents, hseparated.of_later (Nat.le_add_right _ _) (fun gap more hmore hgap => ?_),
                hholds⟩, hstop⟩
              rw [hword]
              refine hgap.comment hwords ?_
              rw [hmore, hrest]
              exact hends

-- ── From offsets to the scanner ─────────────────────────────────────────────

/-- The scanner finds the tokens of lexemes. -/
theorem scanUnits_of_extents {units : List Nat} {extents : List Extent} {tokens : List RawToken}
    (hholds : List.Forall₂ (Extent.Holds units) extents tokens) {offset : Nat}
    (hseparated : Separated units offset extents) :
    scanUnits (.afterUnits (units.take offset)) (units.drop offset) =
      .ok ⟨tokens, .afterUnits units⟩ := by
  induction hholds generalizing offset with
  | nil =>
      have hgap : IsGap (units.drop offset) [] := hseparated
      have hscan := scanUnits_gap hgap (.afterUnits (units.take offset))
      rw [List.append_nil] at hscan
      rw [hscan, scanUnits, ← Position.first_past, ← Position.past_append, List.take_append_drop,
        Position.first_past]
  | @cons e t extents tokens hfirst _ ih =>
      obtain ⟨hle, hgap, hlater⟩ := hseparated
      obtain ⟨follow, hspelled, hstops⟩ := hfirst.spelled
      rw [← Text.between_append_drop units hle, scanUnits_gap hgap, Position.past_between units hle,
        ← Text.between_append_drop units (Nat.le_of_lt hfirst.nonempty),
        scanUnits_of_heads (.token hspelled hstops),
        Position.past_between units (Nat.le_of_lt hfirst.nonempty), ih hlater, ← hfirst.position]
      rfl

/-- A source is scanned to tokens exactly if offsets cut its units into the lexemes of these tokens, in order
    and with nothing but blanks and comments between them. The position of a token is then found by counting
    the units before it, and the end of the tokens by counting all. -/
theorem tokens_cover_source (units : List Nat) (stream : RawStream) :
    tokenizeUnits units = .ok stream ↔
      (∃ extents, Separated units 0 extents ∧
        List.Forall₂ (Extent.Holds units) extents stream.tokens) ∧
      stream.stop = .afterUnits units := by
  constructor
  · exact @exists_extents units 0 stream
  · rintro ⟨⟨extents, hseparated, hholds⟩, hstop⟩
    have hscan := scanUnits_of_extents hholds hseparated
    rw [← hstop] at hscan
    exact hscan

-- half of a character between quotes is the number of its unit
example : tokenizeUnits [39, 0xD800, 39] =
    .ok ⟨[⟨.plain (.number 0xD800), ⟨1, 1⟩⟩], ⟨1, 4⟩⟩ := by decide +kernel

end Source

end Asm6502
