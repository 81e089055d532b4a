import Asm6502.Proofs.Coupling
import Asm6502.Source.Lexer

/-!
# How units are cut into lexemes

The spellings of each kind of token as units, with the characters that would prolong them. Lexemes are as
long as possible, so the first lexeme of a source is a spelling that nothing prolongs, or layout, and the
scanner reads exactly that.

* `RawToken.Spelled`: units are a token, unless a character of a class follows.
* `RawToken.Heads`: the first lexeme of a source.
* `scanUnits_of_heads`, `scanUnits_cases`: the scanner reads the first lexeme, or fails where none begins.
-/

namespace Asm6502.Source

open Text (unitChar)

-- ── Runs of a class ─────────────────────────────────────────────────────────

section Runs

variable {α : Type} {p : α → Bool} {word rest more : List α}

/-- A text that does not go on with a member of a class. -/
def Stops (p : α → Bool) (rest : List α) : Prop := ∀ a, rest.head? = some a → p a = false

theorem stops_nil (p : α → Bool) : Stops p [] := by
  intro a ha
  cases ha

theorem stops_cons {a : α} (ha : p a = false) (rest : List α) : Stops p (a :: rest) := by
  intro a' ha'
  rw [← Option.some.inj ha']
  exact ha

theorem Stops.append (h : Stops p rest) (h' : Stops p more) : Stops p (rest ++ more) := by
  cases rest with
  | nil => exact h'
  | cons a rest => exact stops_cons (h a rfl) _

theorem Stops.of_append (h : Stops p (rest ++ more)) : Stops p rest := by
  cases rest with
  | nil => exact stops_nil p
  | cons a rest => exact stops_cons (h a rfl) _

theorem takeWhile_of_stops (hword : ∀ a ∈ word, p a = true) (hrest : Stops p rest) :
    (word ++ rest).takeWhile p = word := by
  have hstop : rest.takeWhile p = [] := by
    cases rest with
    | nil => rfl
    | cons a more => rw [List.takeWhile_cons_of_neg (by rw [hrest a rfl]; decide)]
  rw [List.takeWhile_append_of_pos hword, hstop, List.append_nil]

/-- The longest run of a class at the front of a text. -/
theorem exists_takeWhile (p : α → Bool) (rest : List α) :
    ∃ word more, rest = word ++ more ∧ (∀ a ∈ word, p a = true) ∧ Stops p more ∧
      rest.takeWhile p = word := by
  induction rest with
  | nil => exact ⟨[], [], rfl, by simp, stops_nil p, rfl⟩
  | cons a rest ih =>
      cases ha : p a with
      | false => exact ⟨[], a :: rest, rfl, by simp, stops_cons ha rest, by simp [ha]⟩
      | true =>
          obtain ⟨word, more, rfl, hword, hmore, htake⟩ := ih
          refine ⟨a :: word, more, rfl, ?_, hmore, ?_⟩
          · exact List.forall_mem_cons.mpr ⟨ha, hword⟩
          · rw [List.takeWhile_cons_of_pos ha, htake]

end Runs

-- ── Classes of characters ───────────────────────────────────────────────────

/-- The class without characters. -/
def never (_ : Char) : Bool := false

/-- The characters that prolong a name, or make it a label. -/
def prolongsName (c : Char) : Bool := isNameChar c || c == ':'

theorem stops_never (rest : List Char) : Stops never rest := fun _ _ => rfl

theorem stops_never_units (rest : List Nat) : Stops (fun u => never (unitChar u)) rest := fun _ _ => rfl

theorem isNameChar_of_isDigitIn {base : Nat} {c : Char} (h : isDigitIn base c = true) :
    isNameChar c = true := by
  unfold isDigitIn digitValue? at h
  unfold isNameChar isNameStart
  split at h
  · rename_i d hd
    split at hd
    · rename_i hdigit
      simp [hdigit]
    split at hd
    · rename_i hlower
      simp [hlower]
    split at hd
    · rename_i hupper
      simp [hupper]
    · cases hd
  · cases h

/-- A class of characters of ASCII, without the first of them. -/
def IsAscii (p : Char → Bool) : Prop := ∀ c, p c = true → 0 < c.toNat ∧ c.toNat < 128

theorem isAscii_never : IsAscii never := fun _ h => nomatch h

theorem isAscii_prolongsName : IsAscii prolongsName := by
  intro c h
  have hrange : ∀ {low high : Char}, low ≤ c → c ≤ high → 0 < low.toNat → high.toNat < 128 →
      0 < c.toNat ∧ c.toNat < 128 := by
    intro low high hlow hhigh hpos hlt
    exact ⟨Nat.lt_of_lt_of_le hpos (UInt32.le_iff_toNat_le.mp hlow),
      Nat.lt_of_le_of_lt (UInt32.le_iff_toNat_le.mp hhigh) hlt⟩
  unfold prolongsName isNameChar isNameStart at h
  simp only [Bool.or_eq_true, Bool.and_eq_true, decide_eq_true_eq, beq_iff_eq] at h
  rcases h with (((⟨hlow, hhigh⟩ | ⟨hlow, hhigh⟩) | rfl) | ⟨hlow, hhigh⟩) | rfl
  · exact hrange hlow hhigh (by decide) (by decide)
  · exact hrange hlow hhigh (by decide) (by decide)
  · decide
  · exact hrange hlow hhigh (by decide) (by decide)
  · decide

theorem isAscii_isNameChar : IsAscii isNameChar :=
  fun c h => isAscii_prolongsName c (Bool.or_eq_true_iff.mpr (Or.inl h))

theorem isAscii_isNameStart : IsAscii isNameStart :=
  fun c h => isAscii_isNameChar c (Bool.or_eq_true_iff.mpr (Or.inl h))

theorem isAscii_isDigitIn (base : Nat) : IsAscii (isDigitIn base) :=
  fun c h => isAscii_isNameChar c (isNameChar_of_isDigitIn h)

theorem isAscii_isLineBlank : IsAscii isLineBlank := by
  intro c h
  unfold isLineBlank at h
  simp only [Bool.or_eq_true, beq_iff_eq] at h
  rcases h with (rfl | rfl) | rfl <;> decide

/-- Only one unit is a given character of ASCII. -/
theorem eq_toNat_of_unitChar {u : Nat} {c : Char} (h : unitChar u = c)
    (hc : 0 < c.toNat ∧ c.toNat < 128) : u = c.toNat := by
  subst h
  unfold unitChar at hc ⊢
  split at hc
  · exact absurd hc.2 (by decide)
  · rename_i hplain
    rw [if_neg hplain]
    unfold Char.ofNat at hc ⊢
    by_cases hvalid : u.isValidChar
    · rw [dif_pos hvalid]
      rfl
    · rw [dif_neg hvalid] at hc
      exact absurd hc.1 (by decide)

-- ── Spellings ───────────────────────────────────────────────────────────────

/-- A token of a kind is written as units, if no character of the class follows. -/
inductive RawToken.Spelled : RawToken.Kind → List Nat → (Char → Bool) → Prop where
  | newline : Spelled (.plain .newline) ['\n'.toNat] never
  | hexadecimal {digits : List Nat} (hsome : digits ≠ [])
      (hdigits : ∀ u ∈ digits, isDigitIn 16 (unitChar u) = true) :
      Spelled (.plain (.number (.ofDigits 16 (digits.map unitChar)))) ('$'.toNat :: digits) (isDigitIn 16)
  | binary {digits : List Nat} (hsome : digits ≠ [])
      (hdigits : ∀ u ∈ digits, isDigitIn 2 (unitChar u) = true) :
      Spelled (.plain (.number (.ofDigits 2 (digits.map unitChar)))) ('%'.toNat :: digits) (isDigitIn 2)
  | decimal {u : Nat} {digits : List Nat} (hu : isDigitIn 10 (unitChar u) = true)
      (hdigits : ∀ u ∈ digits, isDigitIn 10 (unitChar u) = true) :
      Spelled (.plain (.number (.ofDigits 10 ((u :: digits).map unitChar)))) (u :: digits) (isDigitIn 10)
  | character {u : Nat} (hline : u ≠ '\n'.toNat) :
      Spelled (.plain (.number (.ofNat u))) [singleQuote.toNat, u, singleQuote.toNat] never
  | string {content : List Nat} (hcontent : ∀ u ∈ content, u ≠ '"'.toNat ∧ u ≠ '\n'.toNat) :
      Spelled (.quoted content) ('"'.toNat :: (content ++ ['"'.toNat])) never
  | directive {word : List Nat} (hword : ∀ u ∈ word, isNameChar (unitChar u) = true) :
      Spelled (.plain (.directive (upperCase (String.ofList ('.' :: word.map unitChar)))))
        ('.'.toNat :: word) isNameChar
  | label {u : Nat} {tail : List Nat} (hu : isNameStart (unitChar u) = true)
      (htail : ∀ v ∈ tail, isNameChar (unitChar v) = true) :
      Spelled (.plain (.labelDef (String.ofList ((u :: tail).map unitChar))))
        (u :: (tail ++ [':'.toNat])) never
  | name {u : Nat} {tail : List Nat} (hu : isNameStart (unitChar u) = true)
      (htail : ∀ v ∈ tail, isNameChar (unitChar v) = true) :
      Spelled (.plain (.identifier (String.ofList ((u :: tail).map unitChar)))) (u :: tail) prolongsName
  | punctuation {u : Nat} {kind : Token.Kind} (hu : Token.Kind.ofPunctuation? (unitChar u) = some kind) :
      Spelled (.plain kind) [u] never

namespace RawToken

/-- No token is written with nothing. -/
theorem Spelled.exists_cons {kind : Kind} {word : List Nat} {follow : Char → Bool}
    (h : Spelled kind word follow) : ∃ u tail, word = u :: tail := by
  cases h <;> exact ⟨_, _, rfl⟩

/-- Tokens are prolonged by characters of ASCII only. -/
theorem Spelled.isAscii {kind : Kind} {word : List Nat} {follow : Char → Bool}
    (h : Spelled kind word follow) : IsAscii follow := by
  cases h with
  | hexadecimal _ _ => exact isAscii_isDigitIn 16
  | binary _ _ => exact isAscii_isDigitIn 2
  | decimal _ _ => exact isAscii_isDigitIn 10
  | directive _ => exact isAscii_isNameChar
  | name _ _ => exact isAscii_prolongsName
  | _ => exact isAscii_never

end RawToken

-- ── The lexer reads spellings ───────────────────────────────────────────────

/-- A character that starts a name starts nothing else. -/
theorem lexeme_of_isNameStart {u : Nat} (hu : isNameStart (unitChar u) = true) (rest : List Nat) :
    lexeme u rest = .ok (nameOrLabel u rest) := by
  unfold lexeme
  generalize unitChar u = c at hu ⊢
  have hne : ∀ d, isNameStart d = false → c ≠ d := by
    rintro d hd rfl
    rw [hd] at hu
    cases hu
  have hblank : isLineBlank c = false := by
    unfold isLineBlank
    simp [hne ' ' (by decide), hne '\t' (by decide), hne '\r' (by decide)]
  have hdigit : isDigitIn 10 c = false := by
    have hnumeral : ¬('0' ≤ c ∧ c ≤ '9') := by
      rintro ⟨hlow, hhigh⟩
      unfold isNameStart at hu
      simp only [Bool.or_eq_true, Bool.and_eq_true, decide_eq_true_eq, beq_iff_eq] at hu
      rcases hu with (⟨hlow', -⟩ | ⟨hlow', -⟩) | rfl
      · exact absurd (Char.le_trans hlow' hhigh) (by decide)
      · exact absurd (Char.le_trans hlow' hhigh) (by decide)
      · exact absurd hhigh (by decide)
    unfold isDigitIn digitValue?
    rw [if_neg hnumeral]
    split
    · rename_i d hd
      split at hd
      · rw [← Option.some.inj hd]
        exact decide_eq_false (by omega)
      · split at hd
        · rw [← Option.some.inj hd]
          exact decide_eq_false (by omega)
        · cases hd
    · rfl
  dsimp only
  rw [hblank, hdigit, if_neg (by decide), if_neg (hne _ (by decide)), if_neg (hne _ (by decide)),
    if_neg (hne _ (by decide)), if_neg (hne _ (by decide)), if_neg (hne _ (by decide)),
    if_neg (hne _ (by decide)), if_neg (hne _ (by decide)), if_neg (by decide), if_pos hu]

/-- A digit starts nothing but a number. -/
theorem lexeme_of_isDigit {u : Nat} (hu : isDigitIn 10 (unitChar u) = true) (rest : List Nat) :
    lexeme u rest =
      let more := rest.takeWhile (fun u => isDigitIn 10 (unitChar u))
      .ok (some (.plain (.number (.ofDigits 10 ((u :: more).map unitChar)))), more.length) := by
  unfold lexeme
  have hne : ∀ d, isDigitIn 10 d = false → unitChar u ≠ d := by
    rintro d hd rfl
    rw [hd] at hu
    cases hu
  have hblank : isLineBlank (unitChar u) = false := by
    unfold isLineBlank
    simp [hne ' ' (by decide), hne '\t' (by decide), hne '\r' (by decide)]
  dsimp only
  rw [hblank, if_neg (by decide), if_neg (hne _ (by decide)), if_neg (hne _ (by decide)),
    if_neg (hne _ (by decide)), if_neg (hne _ (by decide)), if_neg (hne _ (by decide)),
    if_neg (hne _ (by decide)), if_neg (hne _ (by decide)), if_pos hu]

theorem markedNumber_digits {base : Nat} {digits rest : List Nat}
    (hdigits : ∀ u ∈ digits, isDigitIn base (unitChar u) = true) (hsome : digits ≠ [])
    (hrest : Stops (fun u => isDigitIn base (unitChar u)) rest) :
    markedNumber base (digits ++ rest) =
      .ok (some (.plain (.number (.ofDigits base (digits.map unitChar)))), digits.length) := by
  unfold markedNumber
  rw [takeWhile_of_stops hdigits hrest]
  cases digits with
  | nil => exact absurd rfl hsome
  | cons u more => rfl

theorem lexeme_of_spelled {kind : RawToken.Kind} {u : Nat} {tail rest : List Nat} {follow : Char → Bool}
    (h : RawToken.Spelled kind (u :: tail) follow) (hrest : Stops (fun u => follow (unitChar u)) rest) :
    lexeme u (tail ++ rest) = .ok (some kind, tail.length) := by
  cases h with
  | newline => rfl
  | hexadecimal hsome hdigits => exact markedNumber_digits hdigits hsome hrest
  | binary hsome hdigits => exact markedNumber_digits hdigits hsome hrest
  | decimal hu hdigits => rw [lexeme_of_isDigit hu, takeWhile_of_stops hdigits hrest]
  | character hline =>
      show quotedCharacter (_ :: singleQuote.toNat :: rest) = _
      rw [quotedCharacter, if_pos ⟨hline, rfl⟩]
      rfl
  | @string content hcontent =>
      have hbody : (content ++ '"'.toNat :: rest).takeWhile (fun u => u != '"'.toNat && u != '\n'.toNat) =
          content := by
        refine takeWhile_of_stops (fun u hu => ?_) (stops_cons (by decide) rest)
        obtain ⟨hquote, hline⟩ := hcontent u hu
        exact Bool.and_eq_true_iff.mpr ⟨bne_iff_ne.mpr hquote, bne_iff_ne.mpr hline⟩
      show quotedText ((content ++ ['"'.toNat]) ++ rest) = _
      rw [List.append_assoc, List.singleton_append, quotedText, hbody, List.drop_left,
        if_pos (List.head?_cons ..), List.length_append]
      rfl
  | directive hword =>
      show Except.ok _ = _
      rw [takeWhile_of_stops hword hrest]
  | @label _ tail hu htail =>
      have hmore : (tail ++ ':'.toNat :: rest).takeWhile (fun u => isNameChar (unitChar u)) = tail :=
        takeWhile_of_stops htail (stops_cons (by decide) rest)
      rw [lexeme_of_isNameStart hu, List.append_assoc, List.singleton_append, nameOrLabel, hmore,
        List.drop_left, if_pos (List.head?_cons ..), List.length_append]
      rfl
  | @name _ tail hu htail =>
      have hmore : (tail ++ rest).takeWhile (fun u => isNameChar (unitChar u)) = tail :=
        takeWhile_of_stops htail (fun v hv => (Bool.or_eq_false_iff.mp (hrest v hv)).1)
      have hcolon : ¬rest.head? = some ':'.toNat := fun hcolon => by cases hrest _ hcolon
      rw [lexeme_of_isNameStart hu, nameOrLabel, hmore, List.drop_left, if_neg hcolon]
  | @punctuation _ kind hu =>
      unfold lexeme
      dsimp only
      generalize unitChar u = c at hu ⊢
      unfold Token.Kind.ofPunctuation? at hu
      split at hu <;> cases hu <;> rfl

-- ── First lexemes ───────────────────────────────────────────────────────────

/-- What follows a line of units: nothing, or a line end. -/
def RawToken.LineEnds (rest : List Nat) : Prop := rest = [] ∨ rest.head? = some '\n'.toNat

/-- The first lexeme of a source, before the rest: a token, or layout, which is no token. -/
inductive RawToken.Heads : Option RawToken.Kind → List Nat → List Nat → Prop where
  | token {kind : RawToken.Kind} {word rest : List Nat} {follow : Char → Bool}
      (hword : Spelled kind word follow) (hstops : Stops (fun u => follow (unitChar u)) rest) :
      Heads (some kind) word rest
  | blanks {run rest : List Nat} (hsome : run ≠ [])
      (hrun : ∀ u ∈ run, isLineBlank (unitChar u) = true) : Heads none run rest
  | comment {words rest : List Nat} (hwords : '\n'.toNat ∉ words) (hends : LineEnds rest) :
      Heads none (';'.toNat :: words) rest

theorem RawToken.Heads.ne_nil {kind : Option RawToken.Kind} {word rest : List Nat}
    (h : Heads kind word rest) : word ≠ [] := by
  cases h with
  | token hword _ =>
      obtain ⟨u, tail, rfl⟩ := hword.exists_cons
      exact List.cons_ne_nil u tail
  | blanks hsome _ => exact hsome
  | comment _ _ => exact List.cons_ne_nil _ _

/-- A source begins with a lexeme that has `more` units after its first. -/
def BeginsWith (kind : Option RawToken.Kind) (units : List Nat) (more : Nat) : Prop :=
  ∃ word rest, units = word ++ rest ∧ word.length = more + 1 ∧ RawToken.Heads kind word rest

theorem beginsWith_of_markedNumber {base more : Nat} {mark : Nat} {rest : List Nat}
    {kind : Option RawToken.Kind} (h : markedNumber base rest = .ok (kind, more))
    (hspelled : ∀ {digits : List Nat}, digits ≠ [] → (∀ u ∈ digits, isDigitIn base (unitChar u) = true) →
      RawToken.Spelled (.plain (.number (.ofDigits base (digits.map unitChar)))) (mark :: digits)
        (isDigitIn base)) :
    BeginsWith kind (mark :: rest) more := by
  obtain ⟨digits, rest', rfl, hdigits, hstops, htake⟩ :=
    exists_takeWhile (fun u => isDigitIn base (unitChar u)) rest
  rw [markedNumber, htake] at h
  cases digits with
  | nil => cases h
  | cons d digits =>
      obtain ⟨rfl, rfl⟩ := Prod.mk.inj (Except.ok.inj h)
      exact ⟨mark :: d :: digits, rest', rfl, rfl,
        .token (hspelled (List.cons_ne_nil d digits) hdigits) hstops⟩

theorem beginsWith_of_quotedText {rest : List Nat} {kind : Option RawToken.Kind} {more : Nat}
    (h : quotedText rest = .ok (kind, more)) : BeginsWith kind ('"'.toNat :: rest) more := by
  obtain ⟨content, rest', rfl, hcontent, -, htake⟩ :=
    exists_takeWhile (fun u => u != '"'.toNat && u != '\n'.toNat) rest
  rw [quotedText, htake, List.drop_left] at h
  split at h
  · rename_i hclosed
    obtain ⟨tail, rfl⟩ := List.head?_eq_some_iff.mp hclosed
    obtain ⟨rfl, rfl⟩ := Prod.mk.inj (Except.ok.inj h)
    have hplain : ∀ u ∈ content, u ≠ '"'.toNat ∧ u ≠ '\n'.toNat := by
      intro u hu
      obtain ⟨hquote, hline⟩ := Bool.and_eq_true_iff.mp (hcontent u hu)
      exact ⟨bne_iff_ne.mp hquote, bne_iff_ne.mp hline⟩
    exact ⟨'"'.toNat :: (content ++ ['"'.toNat]), tail, by simp, by simp,
      .token (.string hplain) (stops_never_units _)⟩
  · cases h

theorem beginsWith_of_quotedCharacter {rest : List Nat} {kind : Option RawToken.Kind} {more : Nat}
    (h : quotedCharacter rest = .ok (kind, more)) : BeginsWith kind (singleQuote.toNat :: rest) more := by
  unfold quotedCharacter at h
  split at h
  · rename_i u close rest
    split at h
    · rename_i hquoted
      obtain ⟨hline, rfl⟩ := hquoted
      obtain ⟨rfl, rfl⟩ := Prod.mk.inj (Except.ok.inj h)
      exact ⟨[singleQuote.toNat, u, singleQuote.toNat], rest, rfl, rfl,
        .token (.character hline) (stops_never_units _)⟩
    · cases h
  · cases h

theorem beginsWith_of_nameOrLabel {u : Nat} {rest : List Nat} {kind : Option RawToken.Kind} {more : Nat}
    (hu : isNameStart (unitChar u) = true) (h : nameOrLabel u rest = (kind, more)) :
    BeginsWith kind (u :: rest) more := by
  obtain ⟨tail, rest', rfl, htail, hstops, htake⟩ :=
    exists_takeWhile (fun u => isNameChar (unitChar u)) rest
  rw [nameOrLabel, htake, List.drop_left] at h
  split at h
  · rename_i hcolon
    obtain ⟨rest, rfl⟩ := List.head?_eq_some_iff.mp hcolon
    obtain ⟨rfl, rfl⟩ := Prod.mk.inj h
    exact ⟨u :: (tail ++ [':'.toNat]), rest, by simp, by simp,
      .token (.label hu htail) (stops_never_units _)⟩
  · rename_i hcolon
    obtain ⟨rfl, rfl⟩ := Prod.mk.inj h
    refine ⟨u :: tail, rest', rfl, rfl, .token (.name hu htail) (fun v hv => ?_)⟩
    refine Bool.or_eq_false_iff.mpr ⟨hstops v hv, beq_eq_false_iff_ne.mpr (fun hv' => hcolon ?_)⟩
    rw [hv, eq_toNat_of_unitChar hv' (by decide)]

theorem lineEnds_of_stops_units {rest : List Nat} (h : Stops (· != '\n'.toNat) rest) :
    RawToken.LineEnds rest := by
  cases rest with
  | nil => exact Or.inl rfl
  | cons u rest => exact Or.inr (congrArg some (bne_eq_false_iff_eq.mp (h u rfl)))

/-- What the lexer reads is a first lexeme, and it reads it to its end. -/
theorem beginsWith_of_lexeme {u : Nat} {rest : List Nat} {kind : Option RawToken.Kind} {more : Nat}
    (h : lexeme u rest = .ok (kind, more)) : BeginsWith kind (u :: rest) more := by
  unfold lexeme at h
  dsimp only at h
  by_cases hblank : isLineBlank (unitChar u) = true
  · rw [if_pos hblank] at h
    obtain ⟨run, rest', rfl, hrun, -, htake⟩ := exists_takeWhile (fun u => isLineBlank (unitChar u)) rest
    rw [htake] at h
    obtain ⟨rfl, rfl⟩ := Prod.mk.inj (Except.ok.inj h)
    exact ⟨u :: run, rest', rfl, rfl,
      .blanks (List.cons_ne_nil u run) (List.forall_mem_cons.mpr ⟨hblank, hrun⟩)⟩
  rw [if_neg hblank] at h
  by_cases hline : unitChar u = '\n'
  · rw [if_pos hline] at h
    obtain ⟨rfl, rfl⟩ := Prod.mk.inj (Except.ok.inj h)
    obtain rfl := eq_toNat_of_unitChar hline (by decide)
    exact ⟨['\n'.toNat], rest, rfl, rfl, .token .newline (stops_never_units _)⟩
  rw [if_neg hline] at h
  by_cases hcomment : unitChar u = ';'
  · rw [if_pos hcomment] at h
    obtain ⟨words, rest', rfl, hwords, hstops, htake⟩ := exists_takeWhile (· != '\n'.toNat) rest
    rw [htake] at h
    obtain ⟨rfl, rfl⟩ := Prod.mk.inj (Except.ok.inj h)
    obtain rfl := eq_toNat_of_unitChar hcomment (by decide)
    exact ⟨';'.toNat :: words, rest', rfl, rfl,
      .comment (fun hmem => bne_iff_ne.mp (hwords _ hmem) rfl) (lineEnds_of_stops_units hstops)⟩
  rw [if_neg hcomment] at h
  by_cases hhexadecimal : unitChar u = '$'
  · rw [if_pos hhexadecimal] at h
    obtain rfl := eq_toNat_of_unitChar hhexadecimal (by decide)
    exact beginsWith_of_markedNumber h .hexadecimal
  rw [if_neg hhexadecimal] at h
  by_cases hbinary : unitChar u = '%'
  · rw [if_pos hbinary] at h
    obtain rfl := eq_toNat_of_unitChar hbinary (by decide)
    exact beginsWith_of_markedNumber h .binary
  rw [if_neg hbinary] at h
  by_cases hstring : unitChar u = '"'
  · rw [if_pos hstring] at h
    obtain rfl := eq_toNat_of_unitChar hstring (by decide)
    exact beginsWith_of_quotedText h
  rw [if_neg hstring] at h
  by_cases hcharacter : unitChar u = singleQuote
  · rw [if_pos hcharacter] at h
    obtain rfl := eq_toNat_of_unitChar hcharacter (by decide)
    exact beginsWith_of_quotedCharacter h
  rw [if_neg hcharacter] at h
  by_cases hpoint : unitChar u = '.'
  · rw [if_pos hpoint] at h
    obtain ⟨word, rest', rfl, hword, hstops, htake⟩ :=
      exists_takeWhile (fun u => isNameChar (unitChar u)) rest
    rw [htake] at h
    obtain ⟨rfl, rfl⟩ := Prod.mk.inj (Except.ok.inj h)
    obtain rfl := eq_toNat_of_unitChar hpoint (by decide)
    exact ⟨'.'.toNat :: word, rest', rfl, rfl, .token (.directive hword) hstops⟩
  rw [if_neg hpoint] at h
  by_cases hdigit : isDigitIn 10 (unitChar u) = true
  · rw [if_pos hdigit] at h
    obtain ⟨digits, rest', rfl, hdigits, hstops, htake⟩ :=
      exists_takeWhile (fun u => isDigitIn 10 (unitChar u)) rest
    rw [htake] at h
    obtain ⟨rfl, rfl⟩ := Prod.mk.inj (Except.ok.inj h)
    exact ⟨u :: digits, rest', rfl, rfl, .token (.decimal hdigit hdigits) hstops⟩
  rw [if_neg hdigit] at h
  by_cases hname : isNameStart (unitChar u) = true
  · rw [if_pos hname] at h
    exact beginsWith_of_nameOrLabel hname (Except.ok.inj h)
  rw [if_neg hname] at h
  cases hmark : Token.Kind.ofPunctuation? (unitChar u) with
  | some kind' =>
      rw [hmark] at h
      obtain ⟨rfl, rfl⟩ := Prod.mk.inj (Except.ok.inj h)
      exact ⟨[u], rest, rfl, rfl, .token (.punctuation hmark) (stops_never_units _)⟩
  | none =>
      rw [hmark] at h
      cases h

-- ── The scanner reads first lexemes ─────────────────────────────────────────

theorem Position.past_append (p : Position) (us vs : List Nat) :
    p.past (us ++ vs) = (p.past us).past vs := List.foldl_append ..

theorem scanUnits_of_lexeme {u : Nat} {tail rest : List Nat} {kind : Option RawToken.Kind}
    (h : lexeme u (tail ++ rest) = .ok (kind, tail.length)) (p : Position) :
    scanUnits p (u :: (tail ++ rest)) = (scanUnits (p.past (u :: tail)) rest).map (·.push kind p) := by
  rw [scanUnits, h]
  dsimp only
  rw [List.take_left, List.drop_left]
  show (scanUnits (p.past (u :: tail)) rest >>= _) = _
  cases scanUnits (p.past (u :: tail)) rest <;> rfl

/-- Blanks are passed over, whether or not more of them follow. -/
theorem scanUnits_blanks {run : List Nat} (hrun : ∀ u ∈ run, isLineBlank (unitChar u) = true)
    (p : Position) (rest : List Nat) : scanUnits p (run ++ rest) = scanUnits (p.past run) rest := by
  obtain ⟨later, more, rfl, hlater, hstops, -⟩ := exists_takeWhile (fun u => isLineBlank (unitChar u)) rest
  -- all blanks up to what is none are one lexeme
  have hpass : ∀ (p : Position) {run : List Nat}, (∀ u ∈ run, isLineBlank (unitChar u) = true) →
      scanUnits p (run ++ more) = scanUnits (p.past run) more := by
    intro p run hrun
    cases run with
    | nil => rfl
    | cons u run =>
        obtain ⟨hu, hrun⟩ := List.forall_mem_cons.mp hrun
        have hlexeme : lexeme u (run ++ more) = .ok (none, run.length) := by
          unfold lexeme
          dsimp only
          rw [if_pos hu, takeWhile_of_stops hrun hstops]
        rw [List.cons_append, scanUnits_of_lexeme hlexeme]
        cases scanUnits (p.past (u :: run)) more <;> rfl
  rw [hpass (p.past run) hlater, ← Position.past_append,
    ← hpass p (List.forall_mem_append.mpr ⟨hrun, hlater⟩), List.append_assoc]

/-- The scanner reads the first lexeme, and then the rest. -/
theorem scanUnits_of_heads {kind : Option RawToken.Kind} {word rest : List Nat}
    (h : RawToken.Heads kind word rest) (p : Position) :
    scanUnits p (word ++ rest) = (scanUnits (p.past word) rest).map (·.push kind p) := by
  cases h with
  | token hword hstops =>
      obtain ⟨u, tail, rfl⟩ := hword.exists_cons
      exact scanUnits_of_lexeme (lexeme_of_spelled hword hstops) p
  | blanks _ hrun =>
      rw [scanUnits_blanks hrun]
      cases scanUnits (p.past word) rest <;> rfl
  | @comment words _ hwords hends =>
      have htake : (words ++ rest).takeWhile (· != '\n'.toNat) = words := by
        refine takeWhile_of_stops (fun u hu => bne_iff_ne.mpr ?_) (fun u hu => ?_)
        · rintro rfl
          exact hwords hu
        · rcases hends with rfl | hends
          · cases hu
          · obtain rfl := Option.some.inj (hends.symm.trans hu)
            rfl
      refine scanUnits_of_lexeme ?_ p
      show Except.ok _ = _
      rw [htake]

/-- Where units are left, a lexeme begins, or the scanner fails. -/
theorem scanUnits_cases (p : Position) {units : List Nat} (hsome : units ≠ []) :
    (∃ problem, scanUnits p units = .error (.lexical problem p)) ∨
      ∃ kind word rest, units = word ++ rest ∧ RawToken.Heads kind word rest := by
  obtain ⟨u, us, rfl⟩ := List.exists_cons_of_ne_nil hsome
  cases h : lexeme u us with
  | error problem =>
      refine Or.inl ⟨problem, ?_⟩
      rw [scanUnits, h]
  | ok result =>
      obtain ⟨kind, more⟩ := result
      obtain ⟨word, rest, hunits, -, hheads⟩ := beginsWith_of_lexeme h
      exact Or.inr ⟨kind, word, rest, hunits, hheads⟩

end Asm6502.Source
