import Asm6502.Proofs.Lexemes

/-!
# Characters and their units

A text is scanned by its units. A lexeme never ends within a character: what is cut off at its end is of
ASCII, or a quote or a line end follows. So the lexemes of a text are stretches of its characters, and the
scanner can be told character by character.

* `Text.characters_unitsOf`: units write the characters whose units they are.
* `Spelled`: characters are a token, unless a character of a class follows.
* `Heads.units`, `exists_heads`: first lexemes, of units and of characters.
* `scan_of_heads`, `scan_cases`: the scanner reads the first lexeme of a text, or fails where none begins.
* `scan_induction`: induction from one lexeme to the next.
-/

namespace Asm6502

-- ── Units of characters ─────────────────────────────────────────────────────

namespace Text

theorem unitsOf_cons (c : Char) (cs : List Char) : unitsOf (c :: cs) = charUnits c ++ unitsOf cs :=
  List.flatMap_cons

theorem unitsOf_append (cs ds : List Char) : unitsOf (cs ++ ds) = unitsOf cs ++ unitsOf ds :=
  List.flatMap_append

/-- No character is a surrogate. -/
theorem toNat_bounds (c : Char) : c.toNat < 0xD800 ∨ 0xDFFF < c.toNat ∧ c.toNat < 0x110000 := c.valid

/-- A character of the basic plane is a unit. -/
theorem unitChar_toNat {c : Char} (h : c.toNat < 0x10000) : unitChar c.toNat = c := by
  have hbounds := toNat_bounds c
  unfold unitChar
  rw [if_neg (by omega), Char.ofNat_toNat]

theorem unitsOf_cons_of_lt {c : Char} (h : c.toNat < 0x10000) (cs : List Char) :
    unitsOf (c :: cs) = c.toNat :: unitsOf cs := by
  rw [unitsOf_cons, charUnits, if_pos h]
  rfl

/-- A character has one unit, or two surrogates. -/
theorem charUnits_cases (c : Char) :
    c.toNat < 0x10000 ∧ charUnits c = [c.toNat] ∨
      0x10000 ≤ c.toNat ∧ ∃ high low, charUnits c = [high, low] ∧ (0xD800 ≤ high ∧ high ≤ 0xDBFF) ∧
        (0xDC00 ≤ low ∧ low ≤ 0xDFFF) ∧ c.toNat = 0x10000 + (high - 0xD800) * 0x400 + (low - 0xDC00) := by
  have hbounds := toNat_bounds c
  unfold charUnits
  split
  · rename_i hbasic
    exact Or.inl ⟨hbasic, rfl⟩
  · refine Or.inr ⟨by omega, _, _, rfl, ?_, ?_, ?_⟩ <;> omega

/-- Units write the characters whose units they are. -/
theorem characters_unitsOf (cs : List Char) : characters (unitsOf cs) = cs := by
  induction cs with
  | nil => rfl
  | cons c cs ih =>
      have hbounds := toNat_bounds c
      rw [unitsOf_cons]
      rcases charUnits_cases c with ⟨hbasic, hunits⟩ | ⟨-, high, low, hunits, hhigh, hlow, hcode⟩
      · rw [hunits, List.singleton_append]
        cases hrest : unitsOf cs with
        | nil =>
            rw [hrest] at ih
            rw [characters, unitChar_toNat hbasic, ← ih]
            rfl
        | cons v vs =>
            rw [characters, if_neg (by omega), unitChar_toNat hbasic, ← hrest, ih]
      · rw [hunits]
        show characters (high :: low :: unitsOf cs) = _
        rw [characters, if_pos ⟨hhigh, hlow⟩, ih, ← hcode, Char.ofNat_toNat]

/-- The units at the front tell the first character. -/
theorem charUnits_append_inj {c d : Char} {us vs : List Nat} (h : charUnits c ++ us = charUnits d ++ vs) :
    c = d ∧ us = vs := by
  have hc := toNat_bounds c
  have hd := toNat_bounds d
  suffices hcode : c.toNat = d.toNat ∧ us = vs from ⟨Char.toNat_inj.mp hcode.1, hcode.2⟩
  rcases charUnits_cases c with ⟨-, hunits⟩ | ⟨-, high, low, hunits, hhigh, hlow, hcode⟩ <;>
    rcases charUnits_cases d with ⟨-, hunits'⟩ | ⟨-, high', low', hunits', hhigh', hlow', hcode'⟩ <;>
    rw [hunits, hunits'] at h <;>
    simp only [List.cons_append, List.nil_append, List.cons.injEq] at h
  · exact h
  · omega
  · omega
  · exact ⟨by omega, h.2.2⟩

/-- Units that begin with those of a text are those of a text that begins so. -/
theorem exists_of_unitsOf_append {word cs : List Char} {us : List Nat}
    (h : unitsOf cs = unitsOf word ++ us) : ∃ rest, cs = word ++ rest ∧ unitsOf rest = us := by
  induction word generalizing cs with
  | nil => exact ⟨cs, rfl, h⟩
  | cons c word ih =>
      rw [unitsOf_cons, List.append_assoc] at h
      cases cs with
      | nil =>
          rcases charUnits_cases c with ⟨-, hunits⟩ | ⟨-, high, low, hunits, -⟩ <;> rw [hunits] at h <;>
            cases h
      | cons d cs =>
          rw [unitsOf_cons] at h
          obtain ⟨rfl, htail⟩ := charUnits_append_inj h
          obtain ⟨rest, rfl, hrest⟩ := ih htail
          exact ⟨rest, rfl, hrest⟩

/-- Before a unit that is no low surrogate, a character ends. -/
theorem exists_of_unitsOf_cons {cs : List Char} {us vs : List Nat} {v : Nat}
    (h : unitsOf cs = us ++ v :: vs) (hv : v < 0xDC00) :
    ∃ before after, cs = before ++ after ∧ unitsOf before = us ∧ unitsOf after = v :: vs := by
  induction cs generalizing us with
  | nil => cases us <;> cases h
  | cons c cs ih =>
      cases us with
      | nil => exact ⟨[], c :: cs, rfl, rfl, h⟩
      | cons u us =>
          rw [unitsOf_cons] at h
          rcases charUnits_cases c with ⟨-, hunits⟩ | ⟨-, high, low, hunits, -, hlow, -⟩
          · rw [hunits, List.singleton_append, List.cons_append] at h
            obtain ⟨before, after, rfl, hbefore, hafter⟩ := ih (List.cons.inj h).2
            refine ⟨c :: before, after, rfl, ?_, hafter⟩
            rw [unitsOf_cons, hunits, hbefore, (List.cons.inj h).1]
            rfl
          · rw [hunits, List.cons_append, List.cons_append, List.nil_append, List.cons_append] at h
            obtain ⟨hu, h⟩ := List.cons.inj h
            cases us with
            | nil =>
                obtain ⟨hv', -⟩ := List.cons.inj h
                omega
            | cons u' us =>
                obtain ⟨hu', h⟩ := List.cons.inj h
                obtain ⟨before, after, rfl, hbefore, hafter⟩ := ih h
                refine ⟨c :: before, after, rfl, ?_, hafter⟩
                rw [unitsOf_cons, hunits, hbefore, hu, hu']
                rfl

theorem eq_nil_of_unitsOf {cs : List Char} (h : unitsOf cs = []) : cs = [] := by
  rw [← characters_unitsOf cs, h]
  rfl

/-- A unit by itself is a character of the basic plane. -/
theorem exists_of_unitsOf_singleton {cs : List Char} {u : Nat} (h : unitsOf cs = [u]) :
    ∃ c, cs = [c] ∧ c.toNat = u ∧ width c = 1 := by
  cases cs with
  | nil => cases h
  | cons c cs =>
      rw [unitsOf_cons] at h
      rcases charUnits_cases c with ⟨hbasic, hunits⟩ | ⟨-, high, low, hunits, -⟩
      · rw [hunits] at h
        obtain ⟨rfl, hnil⟩ := List.cons.inj h
        obtain rfl := eq_nil_of_unitsOf hnil
        exact ⟨c, rfl, rfl, if_pos hbasic⟩
      · rw [hunits] at h
        cases (List.cons.inj h).2

/-- A unit that is no surrogate is a character of the text. -/
theorem mem_unitsOf {c : Char} (hc : c.toNat < 0xD800) {cs : List Char} : c.toNat ∈ unitsOf cs ↔ c ∈ cs := by
  unfold unitsOf
  rw [List.mem_flatMap]
  constructor
  · rintro ⟨d, hd, hunit⟩
    rcases charUnits_cases d with ⟨-, hunits⟩ | ⟨-, high, low, hunits, hhigh, hlow, -⟩
    · rw [hunits, List.mem_singleton] at hunit
      rwa [Char.toNat_inj.mp hunit]
    · rw [hunits] at hunit
      simp only [List.mem_cons, List.not_mem_nil, or_false] at hunit
      omega
  · intro h
    refine ⟨c, h, ?_⟩
    rw [charUnits, if_pos (by omega)]
    exact List.mem_singleton_self _

end Text

namespace Source

open Text (unitChar unitsOf)

/-- The position after characters is the one after their units. -/
theorem Position.past_unitsOf (p : Position) (cs : List Char) : p.past (unitsOf cs) = p.after cs := by
  induction cs generalizing p with
  | nil => rfl
  | cons c cs ih =>
      rw [Text.unitsOf_cons, Position.past_append, ih, Position.after_cons]
      congr 1
      unfold Position.next Text.width
      rcases Text.charUnits_cases c with ⟨hbasic, hunits⟩ | ⟨hlarge, high, low, hunits, hhigh, hlow, -⟩
      · rw [hunits, if_pos hbasic]
        show Position.step p c.toNat = _
        unfold Position.step
        simp only [Char.toNat_inj]
      · have hline : ¬c = '\n' := by
          rintro rfl
          exact absurd hlarge (by decide)
        rw [hunits, if_neg hline, if_neg (by omega)]
        show Position.step (Position.step p high) low = _
        have hcode : '\n'.toNat = 10 := rfl
        unfold Position.step
        rw [if_neg (by omega), if_neg (by omega)]

section Ascii

variable {p : Char → Bool} (hp : IsAscii p)
include hp

/-- Characters of ASCII are units. -/
theorem units_of_isAscii {cs : List Char} (hcs : ∀ c ∈ cs, p c = true) :
    (unitsOf cs).map unitChar = cs ∧ ∀ u ∈ unitsOf cs, p (unitChar u) = true := by
  induction cs with
  | nil => exact ⟨rfl, fun _ h => absurd h List.not_mem_nil⟩
  | cons c cs ih =>
      obtain ⟨hc, hcs⟩ := List.forall_mem_cons.mp hcs
      obtain ⟨hmap, hall⟩ := ih hcs
      have hbasic : c.toNat < 0x10000 := by have := (hp c hc).2; omega
      rw [Text.unitsOf_cons, Text.charUnits, if_pos hbasic, List.singleton_append, List.map_cons, hmap,
        Text.unitChar_toNat hbasic]
      refine ⟨rfl, List.forall_mem_cons.mpr ⟨?_, hall⟩⟩
      rwa [Text.unitChar_toNat hbasic]

/-- Units of ASCII are those of characters. -/
theorem unitsOf_map_unitChar {us : List Nat} (hus : ∀ u ∈ us, p (unitChar u) = true) :
    unitsOf (us.map unitChar) = us := by
  induction us with
  | nil => rfl
  | cons u us ih =>
      obtain ⟨hu, hus⟩ := List.forall_mem_cons.mp hus
      have hascii := hp _ hu
      have hcode : u = (unitChar u).toNat := eq_toNat_of_unitChar rfl hascii
      rw [List.map_cons, Text.unitsOf_cons, ih hus, Text.charUnits, if_pos (by omega), ← hcode]
      rfl

/-- Units stop a class where characters do. -/
theorem stops_unitsOf {cs : List Char} : Stops (fun u => p (unitChar u)) (unitsOf cs) ↔ Stops p cs := by
  have hcons : ∀ {α : Type} {q : α → Bool} {a : α} {rest : List α}, Stops q (a :: rest) ↔ q a = false :=
    fun {_ _ a rest} => ⟨fun h => h a rfl, fun h => stops_cons h rest⟩
  have hlarge : ∀ c : Char, 128 ≤ c.toNat → p c = false := by
    intro c hc
    cases h : p c with
    | false => rfl
    | true => exact absurd (hp c h).2 (by omega)
  cases cs with
  | nil => exact ⟨fun _ => stops_nil _, fun _ => stops_nil _⟩
  | cons c cs =>
      rw [Text.unitsOf_cons, hcons]
      rcases Text.charUnits_cases c with ⟨hbasic, hunits⟩ | ⟨hc, high, low, hunits, hhigh, -, -⟩
      · rw [hunits, List.singleton_append, hcons, Text.unitChar_toNat hbasic]
      · rw [hunits, List.cons_append, hcons, hlarge c (by omega), Text.unitChar, if_pos (by omega)]
        exact ⟨fun _ => rfl, fun _ => hlarge _ (by decide)⟩

end Ascii

-- ── Spellings ───────────────────────────────────────────────────────────────

/-- A token of a kind is written as a text, if no character of the class follows. -/
inductive Spelled : Token.Kind → List Char → (Char → Bool) → Prop where
  | newline : Spelled .newline ['\n'] never
  | hexadecimal {digits : List Char} (hsome : digits ≠ [])
      (hdigits : ∀ c ∈ digits, isDigitIn 16 c = true) :
      Spelled (.number (.ofDigits 16 digits)) ('$' :: digits) (isDigitIn 16)
  | binary {digits : List Char} (hsome : digits ≠ []) (hdigits : ∀ c ∈ digits, isDigitIn 2 c = true) :
      Spelled (.number (.ofDigits 2 digits)) ('%' :: digits) (isDigitIn 2)
  | decimal {c : Char} {digits : List Char} (hc : isDigitIn 10 c = true)
      (hdigits : ∀ c ∈ digits, isDigitIn 10 c = true) :
      Spelled (.number (.ofDigits 10 (c :: digits))) (c :: digits) (isDigitIn 10)
  | character {c : Char} (hline : c ≠ '\n') (hwidth : Text.width c = 1) :
      Spelled (.number (.ofNat c.toNat)) [singleQuote, c, singleQuote] never
  | string {content : List Char} (hcontent : ∀ c ∈ content, c ≠ '"' ∧ c ≠ '\n') :
      Spelled (.string (String.ofList content)) ('"' :: (content ++ ['"'])) never
  | directive {word : List Char} (hword : ∀ c ∈ word, isNameChar c = true) :
      Spelled (.directive (upperCase (String.ofList ('.' :: word)))) ('.' :: word) isNameChar
  | label {c : Char} {tail : List Char} (hc : isNameStart c = true)
      (htail : ∀ x ∈ tail, isNameChar x = true) :
      Spelled (.labelDef (String.ofList (c :: tail))) (c :: (tail ++ [':'])) never
  | name {c : Char} {tail : List Char} (hc : isNameStart c = true)
      (htail : ∀ x ∈ tail, isNameChar x = true) :
      Spelled (.identifier (String.ofList (c :: tail))) (c :: tail) prolongsName
  | punctuation {c : Char} {kind : Token.Kind} (hc : Token.Kind.ofPunctuation? c = some kind) :
      Spelled kind [c] never

/-- No token is written with nothing. -/
theorem Spelled.exists_cons {kind : Token.Kind} {word : List Char} {follow : Char → Bool}
    (h : Spelled kind word follow) : ∃ c tail, word = c :: tail := by
  cases h <;> exact ⟨_, _, rfl⟩

theorem toNat_lt_of_isAscii {p : Char → Bool} (hp : IsAscii p) {c : Char} (hc : p c = true) :
    c.toNat < 0x10000 := by
  have hascii := (hp c hc).2
  omega

theorem isAscii_ofPunctuation? : IsAscii (fun c => (Token.Kind.ofPunctuation? c).isSome) := by
  intro c h
  dsimp only at h
  unfold Token.Kind.ofPunctuation? at h
  split at h <;> first | decide | cases h

/-- The spelling of a token as characters is one as units. -/
theorem Spelled.units {kind : Token.Kind} {word : List Char} {follow : Char → Bool}
    (h : Spelled kind word follow) :
    ∃ raw, RawToken.Spelled raw (unitsOf word) follow ∧ raw.decode = kind := by
  cases h with
  | newline => exact ⟨_, .newline, rfl⟩
  | hexadecimal hsome hdigits =>
      obtain ⟨hmap, hall⟩ := units_of_isAscii (isAscii_isDigitIn 16) hdigits
      rw [Text.unitsOf_cons_of_lt (by decide)]
      refine ⟨_, .hexadecimal (fun h => hsome (Text.eq_nil_of_unitsOf h)) hall, ?_⟩
      rw [RawToken.Kind.decode, hmap]
  | binary hsome hdigits =>
      obtain ⟨hmap, hall⟩ := units_of_isAscii (isAscii_isDigitIn 2) hdigits
      rw [Text.unitsOf_cons_of_lt (by decide)]
      refine ⟨_, .binary (fun h => hsome (Text.eq_nil_of_unitsOf h)) hall, ?_⟩
      rw [RawToken.Kind.decode, hmap]
  | decimal hc hdigits =>
      obtain ⟨hmap, hall⟩ := units_of_isAscii (isAscii_isDigitIn 10) hdigits
      have hbasic := toNat_lt_of_isAscii (isAscii_isDigitIn 10) hc
      have hchar := Text.unitChar_toNat hbasic
      rw [Text.unitsOf_cons_of_lt hbasic]
      refine ⟨_, .decimal (by rwa [hchar]) hall, ?_⟩
      rw [RawToken.Kind.decode, List.map_cons, hmap, hchar]
  | @character c hline hwidth =>
      have hbasic : c.toNat < 0x10000 := by
        by_contra hlarge
        rw [Text.width, if_neg hlarge] at hwidth
        cases hwidth
      rw [Text.unitsOf_cons_of_lt (by decide), Text.unitsOf_cons_of_lt hbasic,
        Text.unitsOf_cons_of_lt (by decide)]
      exact ⟨_, .character (fun h => hline (Char.toNat_inj.mp h)), rfl⟩
  | @string content hcontent =>
      rw [Text.unitsOf_cons_of_lt (by decide), Text.unitsOf_append, Text.unitsOf_cons_of_lt (by decide)]
      refine ⟨_, .string (fun u hu => ⟨?_, ?_⟩), ?_⟩
      · rintro rfl
        exact (hcontent _ ((Text.mem_unitsOf (by decide)).mp hu)).1 rfl
      · rintro rfl
        exact (hcontent _ ((Text.mem_unitsOf (by decide)).mp hu)).2 rfl
      · rw [RawToken.Kind.decode, Text.characters_unitsOf]
  | directive hword =>
      obtain ⟨hmap, hall⟩ := units_of_isAscii isAscii_isNameChar hword
      rw [Text.unitsOf_cons_of_lt (by decide)]
      refine ⟨_, .directive hall, ?_⟩
      rw [RawToken.Kind.decode, hmap]
  | label hc htail =>
      obtain ⟨hmap, hall⟩ := units_of_isAscii isAscii_isNameChar htail
      have hbasic := toNat_lt_of_isAscii isAscii_isNameStart hc
      have hchar := Text.unitChar_toNat hbasic
      rw [Text.unitsOf_cons_of_lt hbasic, Text.unitsOf_append, Text.unitsOf_cons_of_lt (by decide)]
      refine ⟨_, .label (by rwa [hchar]) hall, ?_⟩
      rw [RawToken.Kind.decode, List.map_cons, hmap, hchar]
  | name hc htail =>
      obtain ⟨hmap, hall⟩ := units_of_isAscii isAscii_isNameChar htail
      have hbasic := toNat_lt_of_isAscii isAscii_isNameStart hc
      have hchar := Text.unitChar_toNat hbasic
      rw [Text.unitsOf_cons_of_lt hbasic]
      refine ⟨_, .name (by rwa [hchar]) hall, ?_⟩
      rw [RawToken.Kind.decode, List.map_cons, hmap, hchar]
  | punctuation hc =>
      have hbasic := toNat_lt_of_isAscii isAscii_ofPunctuation? (Option.isSome_of_eq_some hc)
      rw [Text.unitsOf_cons_of_lt hbasic]
      exact ⟨_, .punctuation (by rwa [Text.unitChar_toNat hbasic]), rfl⟩

/-- Units without a low surrogate behind them that begin the units of a text are those of its first
    characters. -/
theorem exists_of_lineEnds {text : List Char} {us rest : List Nat} (htext : unitsOf text = us ++ rest)
    (hends : RawToken.LineEnds rest) :
    ∃ before after, text = before ++ after ∧ unitsOf before = us ∧ unitsOf after = rest := by
  rcases hends with rfl | hends
  · exact ⟨text, [], (List.append_nil _).symm, by rw [htext, List.append_nil], rfl⟩
  · obtain ⟨tail, rfl⟩ := List.head?_eq_some_iff.mp hends
    exact Text.exists_of_unitsOf_cons htext (by decide)

/-- The spelling of a token as units, at the front of a text, is one as characters. -/
theorem RawToken.Spelled.exists_word {kind : RawToken.Kind} {text : List Char} {word rest : List Nat}
    {follow : Char → Bool} (h : RawToken.Spelled kind word follow) (htext : unitsOf text = word ++ rest) :
    ∃ word', unitsOf word' = word ∧ Source.Spelled kind.decode word' follow := by
  cases h with
  | newline => exact ⟨['\n'], rfl, .newline⟩
  | @hexadecimal digits hsome hdigits =>
      refine ⟨'$' :: digits.map unitChar, ?_, .hexadecimal (by simpa using hsome) (by simpa using hdigits)⟩
      rw [Text.unitsOf_cons_of_lt (by decide), unitsOf_map_unitChar (isAscii_isDigitIn 16) hdigits]
  | @binary digits hsome hdigits =>
      refine ⟨'%' :: digits.map unitChar, ?_, .binary (by simpa using hsome) (by simpa using hdigits)⟩
      rw [Text.unitsOf_cons_of_lt (by decide), unitsOf_map_unitChar (isAscii_isDigitIn 2) hdigits]
  | @decimal u digits hu hdigits =>
      refine ⟨(u :: digits).map unitChar, ?_, .decimal hu (by simpa using hdigits)⟩
      exact unitsOf_map_unitChar (isAscii_isDigitIn 10) (List.forall_mem_cons.mpr ⟨hu, hdigits⟩)
  | @character u hline =>
      have hclosed : unitsOf text = [singleQuote.toNat, u] ++ singleQuote.toNat :: rest := htext
      obtain ⟨before, -, rfl, hbefore, -⟩ := Text.exists_of_unitsOf_cons hclosed (by decide)
      have hopened : unitsOf before = unitsOf [singleQuote] ++ [u] := hbefore
      obtain ⟨quoted, rfl, hquoted⟩ := Text.exists_of_unitsOf_append hopened
      obtain ⟨c, rfl, rfl, hwidth⟩ := Text.exists_of_unitsOf_singleton hquoted
      refine ⟨[singleQuote, c, singleQuote], ?_, .character (fun h => hline (by rw [h])) hwidth⟩
      show unitsOf (([singleQuote] ++ [c]) ++ [singleQuote]) = _
      rw [Text.unitsOf_append, hbefore]
      rfl
  | @string content hcontent =>
      rw [← List.cons_append, List.append_assoc] at htext
      obtain ⟨before, -, rfl, hbefore, -⟩ := Text.exists_of_unitsOf_cons htext (by decide)
      have hopened : unitsOf before = unitsOf ['"'] ++ content := hbefore
      obtain ⟨body, rfl, rfl⟩ := Text.exists_of_unitsOf_append hopened
      rw [RawToken.Kind.decode, Text.characters_unitsOf]
      refine ⟨'"' :: (body ++ ['"']), ?_, .string (fun c hc => ⟨?_, ?_⟩)⟩
      · rw [Text.unitsOf_cons_of_lt (by decide), Text.unitsOf_append]
        rfl
      · rintro rfl
        exact (hcontent _ ((Text.mem_unitsOf (by decide)).mpr hc)).1 rfl
      · rintro rfl
        exact (hcontent _ ((Text.mem_unitsOf (by decide)).mpr hc)).2 rfl
  | @directive word hword =>
      refine ⟨'.' :: word.map unitChar, ?_, .directive (by simpa using hword)⟩
      rw [Text.unitsOf_cons_of_lt (by decide), unitsOf_map_unitChar isAscii_isNameChar hword]
  | @label u tail hu htail =>
      refine ⟨unitChar u :: (tail.map unitChar ++ [':']), ?_, .label hu (by simpa using htail)⟩
      rw [Text.unitsOf_cons_of_lt (toNat_lt_of_isAscii isAscii_isNameStart hu), Text.unitsOf_append,
        unitsOf_map_unitChar isAscii_isNameChar htail,
        ← eq_toNat_of_unitChar rfl (isAscii_isNameStart _ hu), Text.unitsOf_cons_of_lt (by decide)]
      rfl
  | @name u tail hu htail =>
      refine ⟨(u :: tail).map unitChar, ?_, .name hu (by simpa using htail)⟩
      have hstart : isNameChar (unitChar u) = true := Bool.or_eq_true_iff.mpr (Or.inl hu)
      exact unitsOf_map_unitChar isAscii_isNameChar (List.forall_mem_cons.mpr ⟨hstart, htail⟩)
  | @punctuation u kind hu =>
      refine ⟨[unitChar u], ?_, .punctuation hu⟩
      exact unitsOf_map_unitChar isAscii_ofPunctuation?
        (List.forall_mem_singleton.mpr (Option.isSome_of_eq_some hu))

-- ── First lexemes ───────────────────────────────────────────────────────────

/-- What follows a line: nothing, or a line end. -/
def LineEnds (rest : List Char) : Prop := rest = [] ∨ rest.head? = some '\n'

/-- The first lexeme of a text, before the rest: a token, or layout, which is no token. -/
inductive Heads : Option Token.Kind → List Char → List Char → Prop where
  | token {kind : Token.Kind} {word rest : List Char} {follow : Char → Bool}
      (hword : Spelled kind word follow) (hstops : Stops follow rest) : Heads (some kind) word rest
  | blanks {run rest : List Char} (hsome : run ≠ []) (hrun : ∀ c ∈ run, isLineBlank c = true) :
      Heads none run rest
  | comment {words rest : List Char} (hwords : ∀ c ∈ words, c ≠ '\n') (hends : LineEnds rest) :
      Heads none (';' :: words) rest

theorem lineEnds_unitsOf {rest : List Char} : RawToken.LineEnds (unitsOf rest) ↔ LineEnds rest := by
  constructor
  · rintro (h | h)
    · exact Or.inl (Text.eq_nil_of_unitsOf h)
    · obtain ⟨tail, htail⟩ := List.head?_eq_some_iff.mp h
      have hunits : unitsOf rest = unitsOf ['\n'] ++ tail := htail
      obtain ⟨more, rfl, -⟩ := Text.exists_of_unitsOf_append hunits
      exact Or.inr rfl
  · rintro (rfl | h)
    · exact Or.inl rfl
    · obtain ⟨tail, rfl⟩ := List.head?_eq_some_iff.mp h
      exact Or.inr rfl

/-- The first lexeme of a text is that of its units. -/
theorem Heads.units {kind : Option Token.Kind} {word rest : List Char} (h : Heads kind word rest) :
    ∃ raw, RawToken.Heads raw (unitsOf word) (unitsOf rest) ∧
      raw.map RawToken.Kind.decode = kind := by
  cases h with
  | token hword hstops =>
      obtain ⟨raw, hraw, rfl⟩ := hword.units
      exact ⟨some raw, .token hraw ((stops_unitsOf hraw.isAscii).mpr hstops), rfl⟩
  | blanks hsome hrun =>
      refine ⟨none, .blanks (fun h => hsome (Text.eq_nil_of_unitsOf h)) ?_, rfl⟩
      exact (units_of_isAscii isAscii_isLineBlank hrun).2
  | comment hwords hends =>
      rw [Text.unitsOf_cons_of_lt (by decide)]
      refine ⟨none, .comment (fun hmem => ?_) (lineEnds_unitsOf.mpr hends), rfl⟩
      exact hwords _ ((Text.mem_unitsOf (by decide)).mp hmem) rfl

/-- The first lexeme of the units of a text is one of its characters. -/
theorem exists_heads {kind : Option RawToken.Kind} {text : List Char} {word rest : List Nat}
    (h : RawToken.Heads kind word rest) (htext : unitsOf text = word ++ rest) :
    ∃ word' rest', text = word' ++ rest' ∧ word' ≠ [] ∧
      Heads (kind.map RawToken.Kind.decode) word' rest' := by
  have hparts : ∃ word' rest', text = word' ++ rest' ∧ unitsOf word' = word ∧ unitsOf rest' = rest ∧
      Heads (kind.map RawToken.Kind.decode) word' rest' := by
    cases h with
    | token hword hstops =>
        obtain ⟨word', rfl, hword'⟩ := hword.exists_word htext
        obtain ⟨rest', rfl, rfl⟩ := Text.exists_of_unitsOf_append htext
        exact ⟨word', rest', rfl, rfl, rfl, .token hword' ((stops_unitsOf hword.isAscii).mp hstops)⟩
    | blanks hsome hrun =>
        have hunits := unitsOf_map_unitChar isAscii_isLineBlank hrun
        rw [← hunits] at htext
        obtain ⟨rest', rfl, rfl⟩ := Text.exists_of_unitsOf_append htext
        exact ⟨word.map unitChar, rest', rfl, hunits, rfl,
          .blanks (by simpa using hsome) (by simpa using hrun)⟩
    | @comment words _ hwords hends =>
        obtain ⟨line, rest', rfl, hline, rfl⟩ := exists_of_lineEnds htext hends
        have hmark : unitsOf line = unitsOf [';'] ++ words := hline
        obtain ⟨body, rfl, rfl⟩ := Text.exists_of_unitsOf_append hmark
        refine ⟨';' :: body, rest', rfl, hline, rfl, .comment (fun c hc => ?_) (lineEnds_unitsOf.mp hends)⟩
        rintro rfl
        exact hwords ((Text.mem_unitsOf (by decide)).mpr hc)
  obtain ⟨word', rest', hcut, rfl, -, hheads⟩ := hparts
  refine ⟨word', rest', hcut, ?_, hheads⟩
  rintro rfl
  exact h.ne_nil rfl

-- ── The scanner reads first lexemes ─────────────────────────────────────────

/-- Reads the tokens of characters from a position on. -/
def scan (p : Position) (text : List Char) : Except Fault TokenStream :=
  (scanUnits p (unitsOf text)).map RawStream.decode

theorem tokenize_eq_scan (source : String) : tokenize source = scan .first source.toList := rfl

/-- The stream with the token of a lexeme in front, if it makes one. -/
def TokenStream.push (kind : Option Token.Kind) (position : Position) (s : TokenStream) : TokenStream :=
  match kind with
  | some kind => { s with tokens := ⟨kind, position⟩ :: s.tokens }
  | none => s

theorem RawStream.decode_push (s : RawStream) (kind : Option RawToken.Kind) (p : Position) :
    (s.push kind p).decode = s.decode.push (kind.map RawToken.Kind.decode) p := by
  cases kind <;> rfl

theorem scan_nil (p : Position) : scan p [] = .ok ⟨[], p⟩ := by
  show Except.map _ (scanUnits p []) = _
  rw [scanUnits]
  rfl

/-- The scanner reads the first lexeme of a text, and then the rest. -/
theorem scan_of_heads {kind : Option Token.Kind} {word rest : List Char} (h : Heads kind word rest)
    (p : Position) : scan p (word ++ rest) = (scan (p.after word) rest).map (·.push kind p) := by
  obtain ⟨raw, hraw, rfl⟩ := h.units
  unfold scan
  rw [Text.unitsOf_append, scanUnits_of_heads hraw, Position.past_unitsOf]
  cases scanUnits (p.after word) (unitsOf rest) with
  | error fault => rfl
  | ok stream => exact congrArg Except.ok (stream.decode_push raw p)

/-- Where characters are left, a lexeme begins, or the scanner fails. -/
theorem scan_cases (p : Position) {text : List Char} (hsome : text ≠ []) :
    (∃ problem, scan p text = .error (.lexical problem p)) ∨
      ∃ kind word rest, text = word ++ rest ∧ word ≠ [] ∧ Heads kind word rest := by
  have hunits : unitsOf text ≠ [] := fun h => hsome (Text.eq_nil_of_unitsOf h)
  rcases scanUnits_cases p hunits with ⟨problem, hfails⟩ | ⟨kind, word, rest, htext, hheads⟩
  · exact Or.inl ⟨problem, by rw [scan, hfails]; rfl⟩
  · exact Or.inr ⟨_, exists_heads hheads htext⟩

/-- Induction on a text from one lexeme to the next. -/
@[elab_as_elim]
theorem scan_induction {motive : Position → List Char → Prop} (nil : ∀ p, motive p [])
    (fails : ∀ p text problem, text ≠ [] → scan p text = .error (.lexical problem p) → motive p text)
    (reads : ∀ p kind word rest, Heads kind word rest → motive (p.after word) rest →
      motive p (word ++ rest)) (p : Position) (text : List Char) : motive p text := by
  induction hlength : text.length using Nat.strongRecOn generalizing p text with
  | ind length ih =>
      by_cases hend : text = []
      · exact hend ▸ nil p
      · rcases scan_cases p hend with ⟨problem, hfails⟩ | ⟨kind, word, rest, rfl, hsome, hheads⟩
        · exact fails p text problem hend hfails
        · have hshorter : rest.length < length := by
            have hpos := List.length_pos_iff.mpr hsome
            rw [List.length_append] at hlength
            omega
          exact reads p kind word rest hheads (ih _ hshorter _ _ rfl)

end Source

end Asm6502
