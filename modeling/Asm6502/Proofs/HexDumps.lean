import Mathlib.Tactic.IntervalCases
import Asm6502.Output.HexDump
import Asm6502.Proofs.Exactness
import Asm6502.Proofs.Scanning

/-!
# Reading a hex dump

A dump shows each byte at a column that depends on its place in its line alone, so it can be read without
knowing what was dumped.

* `column`: where the digits of a byte stand, behind the address of its line.
* `read`: the bytes that a text shows in these columns.
* `take_column`: a line shows each byte of its row at its column, and blanks where the row has ended.
* `read_render`: what is read from a dump is what was dumped, wherever it lies.
-/

namespace Asm6502

namespace Number

/-- A colon or a line end does not occur in a hexadecimal text. -/
theorem not_mem_hexText {c : Char} (h : c = ':' ∨ c = '\n') (x : Number) : c ∉ x.hexText.toList := by
  have hdigits : ∀ n, c ∉ hexDigits n := by
    intro n hc
    have hdigit := (Source.hexDigits_read n).1 c hc
    rcases h with rfl | rfl <;> cases hdigit
  have hfraction : ∀ q, c ∉ hexFraction q := by
    intro q hc
    rcases List.mem_append.mp hc with hc | hc
    · obtain rfl := (List.mem_replicate.mp hc).2
      rcases h with h | h <;> cases h
    · exact hdigits _ hc
  have hpositive : ∀ q, c ∉ positiveHexText q := by
    intro q hc
    rcases List.mem_append.mp hc with hc | hc
    · exact hdigits _ hc
    · split at hc
      · cases hc
      · rcases List.mem_cons.mp hc with rfl | hc
        · rcases h with h | h <;> cases h
        · exact hfraction _ hc
  cases x with
  | nan => rcases h with rfl | rfl <;> decide
  | infinite negative => cases negative <;> rcases h with rfl | rfl <;> decide
  | finite q =>
      unfold hexText
      dsimp only
      split
      · have hsign : c ∉ "-".toList := by rcases h with rfl | rfl <;> decide
        rw [String.toList_append, String.toList_ofList (l := positiveHexText (-q)), List.mem_append, not_or]
        exact ⟨hsign, hpositive _⟩
      · rw [String.toList_ofList]
        exact hpositive q

end Number

namespace HexDump

-- ── Reading ─────────────────────────────────────────────────────────────────

/-- The column at which the digits of a byte begin, behind the address: three for each byte before it, and
    one more for each group. -/
def column (j : Nat) : Nat := 3 * j + j / 4

/-- The byte that two hexadecimal digits are. -/
def byteOf? : List Char → Option UInt8
  | [high, low] =>
    if isDigitIn 16 high && isDigitIn 16 low then some (UInt8.ofNat (natOfDigits 16 [high, low])) else none
  | _ => none

/-- The bytes in the columns of a line, behind its address. -/
def bytesOf (body : List Char) : List UInt8 :=
  (List.range rowLength).filterMap (fun j => byteOf? ((body.drop (column j)).take 2))

/-- What stands behind the address of a line. -/
def bodyOf (line : List Char) : List Char := (line.dropWhile (· ≠ ':')).drop 2

/-- The lines of a text; the empty text has none. -/
def linesOf (text : String) : List (List Char) :=
  if text.toList = [] then [] else text.toList.splitOn '\n'

/-- The bytes that a text shows. -/
def read (text : String) : List UInt8 := (linesOf text).flatMap (fun line => bytesOf (bodyOf line))

-- ── Rows ────────────────────────────────────────────────────────────────────

theorem rows_nil : rows [] = [] := by
  rw [rows]

theorem rows_cons (b : UInt8) (rest : List UInt8) :
    rows (b :: rest) = (b :: rest.take 15) :: rows (rest.drop 15) := by
  rw [rows]
  rfl

/-- A row holds the sixteen bytes from its place on, or those that are left. -/
theorem getElem?_rows (bytes : List UInt8) (k : Nat) :
    (rows bytes)[k]? =
      if 16 * k < bytes.length then some ((bytes.drop (16 * k)).take 16) else none := by
  induction k generalizing bytes with
  | zero => cases bytes <;> simp [rows_nil, rows_cons]
  | succ k ih =>
      cases bytes with
      | nil => simp [rows_nil]
      | cons b rest =>
          rw [rows_cons, List.getElem?_cons_succ, ih, List.length_drop, List.drop_drop,
            show 16 * (k + 1) = (15 + 16 * k) + 1 by omega, List.drop_succ_cons, List.length_cons]
          congr 1
          exact propext (by omega)

theorem length_rows (bytes : List UInt8) : (rows bytes).length = (bytes.length + 15) / 16 := by
  -- there is a row at `k` as long as bytes are left, and this fixes how many there are
  have hlast : ∀ k, (rows bytes).length ≤ k ↔ bytes.length ≤ 16 * k := by
    intro k
    rw [← List.getElem?_eq_none_iff, getElem?_rows]
    split
    · exact iff_of_false (by simp) (by omega)
    · exact iff_of_true rfl (by omega)
  have hle := (hlast _).mp (Nat.le_refl _)
  have hge := (hlast ((bytes.length + 15) / 16)).mpr (by omega)
  omega

theorem flatten_rows (bytes : List UInt8) : (rows bytes).flatten = bytes := by
  fun_induction rows bytes with
  | case1 => rfl
  | case2 b rest ih => rw [List.flatten_cons, ih, List.cons_append, List.take_append_drop]

theorem length_le_of_mem_rows {bytes row : List UInt8} (h : row ∈ rows bytes) : row.length ≤ 16 := by
  obtain ⟨k, hk⟩ := List.getElem?_of_mem h
  rw [getElem?_rows] at hk
  split at hk
  · rw [← Option.some.inj hk]
    exact List.length_take_le 16 _
  · cases hk

-- ── Columns ─────────────────────────────────────────────────────────────────

/-- A byte is two digits. -/
theorem toList_hexByte (b : UInt8) :
    (hexByte b).toList = [Nat.digitChar (b.toNat / 16), Nat.digitChar (b.toNat % 16)] := by
  have hlt := b.toNat_lt
  rw [hexByte, padZeros, String.toList_append, String.toList_ofList, String.toList_ofList, hexDigits,
    String.length_ofList, Nat.toDigits_eq_if (by decide)]
  by_cases hsmall : b.toNat < 16
  · rw [if_pos hsmall, Nat.div_eq_of_lt hsmall, Nat.mod_eq_of_lt hsmall]
    rfl
  · rw [if_neg hsmall, Nat.toDigits_of_lt_base (by omega)]
    rfl

theorem byteOf?_hexByte (b : UInt8) : byteOf? (hexByte b).toList = some b := by
  have hlt := b.toNat_lt
  have hhigh := Source.digitValue?_digitChar (d := b.toNat / 16) (by omega)
  have hlow := Source.digitValue?_digitChar (d := b.toNat % 16) (by omega)
  have hdigits : (isDigitIn 16 (b.toNat / 16).digitChar && isDigitIn 16 (b.toNat % 16).digitChar) = true := by
    simp only [isDigitIn, hhigh, hlow]
    simp only [Bool.and_eq_true, decide_eq_true_eq]
    omega
  have hvalue : natOfDigits 16 [(b.toNat / 16).digitChar, (b.toNat % 16).digitChar] = b.toNat := by
    simp only [natOfDigits, List.foldl_cons, List.foldl_nil, hhigh, hlow, Option.getD_some]
    omega
  rw [toList_hexByte, byteOf?, if_pos hdigits, hvalue, UInt8.ofNat_toNat]

/-- The two characters at the column of a byte: its digits, or blanks. -/
def pair (x : Option UInt8) : Char × Char :=
  match x with
  | some b => (Nat.digitChar (b.toNat / 16), Nat.digitChar (b.toNat % 16))
  | none => (' ', ' ')

theorem toList_hexColumn (x : Option UInt8) : (hexColumn x).toList = [(pair x).1, (pair x).2] := by
  cases x with
  | none => rfl
  | some b => exact toList_hexByte b

/-- What a line shows behind its address. -/
def body (row : List UInt8) : List Char :=
  (hexPart row).toList ++ ' ' :: ' ' :: '|' :: ((charPart row).toList ++ ['|'])

theorem take_column (row : List UInt8) {j : Nat} (hj : j < 16) :
    ((body row).drop (column j)).take 2 = (hexColumn row[j]?).toList := by
  rw [toList_hexColumn, body, hexPart]
  simp only [List.map_cons, List.map_nil, String.toList_intercalate, toList_hexColumn]
  -- every column is two characters by now, so the place of each is found by evaluation
  interval_cases j <;> rfl

theorem length_body (row : List UInt8) : (body row).length = 70 := by
  have hchars : (charPart row).toList.length = 16 := by
    rw [charPart, String.toList_ofList, List.length_map, List.length_range, rowLength]
  rw [body, hexPart]
  simp only [List.map_cons, List.map_nil, String.toList_intercalate, toList_hexColumn]
  rw [List.length_append, List.length_cons, List.length_cons, List.length_cons, List.length_append, hchars]
  rfl

/-- What is shown at a column is read as the byte there. -/
theorem byteOf?_hexColumn (x : Option UInt8) : byteOf? (hexColumn x).toList = x := by
  cases x with
  | none => rfl
  | some b => exact byteOf?_hexByte b

/-- A list is put together from what it has at each place. -/
theorem filterMap_getElem?_range {α : Type} (l : List α) {n : Nat} (h : l.length ≤ n) :
    (List.range n).filterMap (fun j => l[j]?) = l := by
  induction l generalizing n with
  | nil => simp
  | cons a l ih =>
      obtain ⟨m, rfl⟩ := Nat.exists_eq_add_of_le' h
      rw [List.length_cons, ← Nat.add_assoc, List.range_succ_eq_map,
        List.filterMap_cons_some (f := fun j => (a :: l)[j]?) (b := a) rfl, List.filterMap_map]
      exact congrArg (a :: ·) (ih (Nat.le_add_left _ m))

theorem bytesOf_body {row : List UInt8} (h : row.length ≤ 16) : bytesOf (body row) = row := by
  have hcolumns : ∀ j ∈ List.range 16, byteOf? (((body row).drop (column j)).take 2) = row[j]? := by
    intro j hj
    rw [take_column row (List.mem_range.mp hj), byteOf?_hexColumn]
  rw [bytesOf, rowLength, List.filterMap_congr hcolumns, filterMap_getElem?_range row h]

-- ── Lines ───────────────────────────────────────────────────────────────────

theorem toList_line (address : Number) (row : List UInt8) :
    (line address row).toList = (padZeros 4 address.hexText).toList ++ ':' :: ' ' :: body row := by
  simp [line, body]

theorem not_mem_address {c : Char} (h : c = ':' ∨ c = '\n') (x : Number) :
    c ∉ (padZeros 4 x.hexText).toList := by
  rw [padZeros, String.toList_append, String.toList_ofList, List.mem_append, not_or]
  refine ⟨fun hc => ?_, x.not_mem_hexText h⟩
  obtain rfl := (List.mem_replicate.mp hc).2
  rcases h with h | h <;> cases h

theorem bodyOf_line (address : Number) (row : List UInt8) : bodyOf (line address row).toList = body row := by
  have hbefore : ∀ c ∈ (padZeros 4 address.hexText).toList, decide (c ≠ ':') = true :=
    fun c hc => decide_eq_true (fun hcolon => not_mem_address (Or.inl hcolon) address hc)
  rw [bodyOf, toList_line, List.dropWhile_append_of_pos hbefore]
  rfl

theorem not_mem_hexPart (row : List UInt8) : '\n' ∉ (hexPart row).toList := by
  have hdigit : ∀ d < 16, '\n' ≠ Nat.digitChar d := by decide
  have hpair : ∀ x, '\n' ≠ (pair x).1 ∧ '\n' ≠ (pair x).2 := by
    intro x
    cases x with
    | none => exact ⟨by decide, by decide⟩
    | some b =>
        have hlt := b.toNat_lt
        exact ⟨hdigit _ (by omega), hdigit _ (by omega)⟩
  rw [hexPart]
  simp only [List.map_cons, List.map_nil, String.toList_intercalate, toList_hexColumn]
  simp [List.intercalate, hpair]

theorem not_mem_charPart (row : List UInt8) : '\n' ∉ (charPart row).toList := by
  have hshown : ∀ n < 127, 32 ≤ n → Char.ofNat n ≠ '\n' := by decide
  rw [charPart, String.toList_ofList]
  intro hmem
  obtain ⟨i, -, hi⟩ := List.mem_map.mp hmem
  unfold charColumn at hi
  split at hi
  · split at hi
    · rename_i hprintable
      exact hshown _ hprintable.2 hprintable.1 hi
    · cases hi
  · cases hi

theorem not_mem_line (address : Number) (row : List UInt8) : '\n' ∉ (line address row).toList := by
  rw [toList_line, body]
  simp [not_mem_address (Or.inr rfl) address, not_mem_hexPart row, not_mem_charPart row]

/-- Each row has its line, with the address at which it lies. -/
theorem getElem?_linesFrom (origin : Number) (offset : Nat) (rows : List (List UInt8)) (k : Nat) :
    (linesFrom origin offset rows)[k]? =
      rows[k]?.map (line (origin + .ofNat (offset + 16 * k))) := by
  induction rows generalizing offset k with
  | nil => rfl
  | cons row rest ih =>
      cases k with
      | zero => rfl
      | succ k =>
          rw [linesFrom, List.getElem?_cons_succ, ih, List.getElem?_cons_succ, rowLength,
            show offset + 16 + 16 * k = offset + 16 * (k + 1) by omega]

theorem length_linesFrom (origin : Number) (offset : Nat) (rows : List (List UInt8)) :
    (linesFrom origin offset rows).length = rows.length := by
  induction rows generalizing offset with
  | nil => rfl
  | cons row rest ih => rw [linesFrom, List.length_cons, ih, List.length_cons]

/-- Lines that are joined to a text are the lines of that text. -/
theorem linesOf_intercalate {lines : List String} (hline : ∀ l ∈ lines, '\n' ∉ l.toList)
    (hsome : ∀ l ∈ lines, l.toList ≠ []) :
    linesOf (String.intercalate "\n" lines) = lines.map String.toList := by
  cases lines with
  | nil => rfl
  | cons first rest =>
      have hsplit : (['\n'].intercalate ((first :: rest).map String.toList)).splitOn '\n' =
          (first :: rest).map String.toList :=
        List.splitOn_intercalate '\n' (by simpa using hline) (by simp)
      have hne : (String.intercalate "\n" (first :: rest)).toList ≠ [] := by
        have hfirst := hsome first (List.mem_cons_self ..)
        cases rest <;> simp_all [List.intercalate]
      rw [linesOf, if_neg hne, String.toList_intercalate]
      exact hsplit

theorem linesOf_render (bytes : List UInt8) (origin : Number) :
    linesOf (render bytes origin) = (linesFrom origin 0 (rows bytes)).map String.toList := by
  have hline : ∀ l ∈ linesFrom origin 0 (rows bytes), ∃ address row, l = line address row := by
    intro l hl
    obtain ⟨k, hk⟩ := List.getElem?_of_mem hl
    rw [getElem?_linesFrom] at hk
    obtain ⟨row, -, rfl⟩ := Option.map_eq_some_iff.mp hk
    exact ⟨_, row, rfl⟩
  refine linesOf_intercalate (fun l hl => ?_) (fun l hl => ?_)
  · obtain ⟨address, row, rfl⟩ := hline l hl
    exact not_mem_line address row
  · obtain ⟨address, row, rfl⟩ := hline l hl
    rw [toList_line]
    simp

/-- What is read from a dump is what was dumped. -/
theorem read_render (bytes : List UInt8) (origin : Number) : read (render bytes origin) = bytes := by
  have hrow : ∀ offset (rs : List (List UInt8)), (∀ row ∈ rs, row.length ≤ 16) →
      ((linesFrom origin offset rs).map String.toList).flatMap (fun l => bytesOf (bodyOf l)) =
        rs.flatten := by
    intro offset rs
    induction rs generalizing offset with
    | nil => exact fun _ => rfl
    | cons row rest ih =>
        intro hrs
        rw [linesFrom, List.map_cons, List.flatMap_cons, bodyOf_line,
          bytesOf_body (hrs row (List.mem_cons_self ..)),
          ih _ (fun r hr => hrs r (List.mem_cons_of_mem _ hr)), List.flatten_cons]
  rw [read, linesOf_render, hrow 0 (rows bytes) (fun row h => length_le_of_mem_rows h), flatten_rows]

end HexDump

-- ── Dumps ───────────────────────────────────────────────────────────────────

open HexDump in
/-- A dump of `n` bytes has a line for every sixteen of them. A line begins with the address of its first
    byte as hexadecimal text, padded to four digits, and a colon; up to `2^53` these are the digits of the
    address. Behind them come 70 characters, in which the digits of each byte stand at a column of their own,
    blank where the bytes have ended. So the bytes can be read back, and different bytes have different
    dumps. -/
theorem hex_dump_is_lossless (bytes : List UInt8) (origin : Nat) :
    (linesOf (render bytes (.ofNat origin))).length = (bytes.length + 15) / 16 ∧
    (∀ k < (bytes.length + 15) / 16, ∃ address body,
      (linesOf (render bytes (.ofNat origin)))[k]? = some (address ++ ':' :: ' ' :: body) ∧
      address = (padZeros 4 (Number.ofNat origin + .ofNat (16 * k)).hexText).toList ∧
      (origin + 16 * k ≤ 2 ^ 53 →
        address = (padZeros 4 (String.ofList (hexDigits (origin + 16 * k)))).toList) ∧
      body.length = 70 ∧
      ∀ j < 16, byteOf? ((body.drop (column j)).take 2) = bytes[16 * k + j]? ∧
        (bytes.length ≤ 16 * k + j → (body.drop (column j)).take 2 = [' ', ' '])) ∧
    read (render bytes (.ofNat origin)) = bytes ∧
    ∀ other place, render other place = render bytes (.ofNat origin) → other = bytes := by
  refine ⟨?_, fun k hk => ?_, read_render bytes _, fun other place heq => ?_⟩
  · rw [linesOf_render, List.length_map, length_linesFrom, length_rows]
  · have hrow : (rows bytes)[k]? = some ((bytes.drop (16 * k)).take 16) := by
      rw [getElem?_rows, if_pos (by omega)]
    refine ⟨_, body ((bytes.drop (16 * k)).take 16), ?_, rfl, fun hsmall => ?_, length_body _,
      fun j hj => ?_⟩
    · rw [linesOf_render, List.getElem?_map, getElem?_linesFrom, hrow, Option.map_some, Option.map_some,
        toList_line, Nat.zero_add]
    · rw [Number.ofNat_add (by unfold Number.exactLimit; omega), Number.hexText_ofNat]
    · have hbyte : ((bytes.drop (16 * k)).take 16)[j]? = bytes[16 * k + j]? := by
        rw [List.getElem?_take_of_lt hj, List.getElem?_drop]
      rw [take_column _ hj, hbyte]
      refine ⟨byteOf?_hexColumn _, fun hend => ?_⟩
      rw [List.getElem?_eq_none hend]
      rfl
  · have hread := read_render other place
    rw [heq, read_render] at hread
    exact hread.symm

end Asm6502
