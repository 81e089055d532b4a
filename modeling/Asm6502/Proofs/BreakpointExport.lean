import Mathlib.Data.List.Nodup
import Asm6502.Output.DebuggerFile
import Asm6502.Proofs.Exactness
import Asm6502.Proofs.OwnerScopes
import Asm6502.Proofs.Scanning

/-!
# The export of breakpoints

A program asks a debugger to stop at places of the program, at cells and at lines of the screen. Each
wish is recorded as a text, and the exporter reads the location back from that text. For a cell the text is
the address with the condition right behind it, so a condition that starts with a hexadecimal digit joins
the address.

* `Table.Groups`: what it means that a table groups a list by a key.
* `readInteger_digits`: digits are read as the number that they write.
* `Stop.readLocation_eq_iff`: when a location is read back as it was given.
* `Chain.records`: what a program records in the final pass.
* `stops_are_exported`: what the exported document holds.
-/

namespace Asm6502

open Asm6502.Action (Moves)

-- ── Groups ──────────────────────────────────────────────────────────────────

namespace Table

variable {α κ ν : Type} [DecidableEq κ] {key : α → κ}

/-- A table that groups a list by a key: keys in order of first appearance, and under each key its items in
    their order. -/
structure Groups (key : α → κ) (l : List α) (t : Table κ (List α)) : Prop where
  keys : t.keys = (l.map key).eraseDups
  distinct : t.keys.Nodup
  items : ∀ k, (t.find? k).getD [] = l.filter (fun a => key a = k)

/-- The table with one more item in its group. -/
def file (key : α → κ) (t : Table κ (List α)) (a : α) : Table κ (List α) :=
  t.insert (key a) ((t.find? (key a)).getD [] ++ [a])

theorem Groups.empty (key : α → κ) : Groups key [] (Table.empty : Table κ (List α)) :=
  ⟨rfl, List.nodup_nil, fun _ => rfl⟩

theorem Groups.file {l : List α} {t : Table κ (List α)} (h : Groups key l t) (a : α) :
    Groups key (l ++ [a]) (t.file key a) where
  keys := by
    rw [Table.file, keys_insert, List.map_append, List.eraseDups_append, ← h.keys]
    have hmem : key a ∈ t.keys ↔ key a ∈ l.map key := by rw [h.keys, List.mem_eraseDups]
    by_cases hold : key a ∈ l.map key
    · have hnone : ([a].map key).removeAll (l.map key) = [] :=
        List.filter_cons_of_neg (by simpa using hold)
      rw [if_pos (hmem.mpr hold), hnone, List.eraseDups_nil, List.append_nil]
    · have hone : ([a].map key).removeAll (l.map key) = [key a] :=
        List.filter_cons_of_pos (by simpa using hold)
      rw [if_neg (fun hk => hold (hmem.mp hk)), hone]
      rfl
  distinct := by
    rw [Table.file, keys_insert]
    split
    · exact h.distinct
    · rename_i hnew
      exact List.nodup_append.mpr ⟨h.distinct, List.nodup_singleton _, fun k hk k' hk' heq =>
        hnew (by rwa [← List.mem_singleton.mp hk', ← heq])⟩
  items k := by
    rw [Table.file, find?_insert, List.filter_append]
    by_cases hk : key a = k
    · rw [if_pos hk, Option.getD_some, h.items, hk]
      simp [hk]
    · rw [if_neg hk, h.items]
      simp [hk]

theorem Groups.foldl {l : List α} {t : Table κ (List α)} (h : Groups key l t) (more : List α) :
    Groups key (l ++ more) (more.foldl (Table.file key) t) := by
  induction more generalizing l t with
  | nil =>
      rw [List.append_nil]
      exact h
  | cons a more ih =>
      rw [List.foldl_cons, List.append_cons]
      exact ih (h.file a)

/-- Where no key occurs twice, the value of a key is the one that stands beside it. -/
theorem toList_of_nodup {t : Table κ ν} (h : t.keys.Nodup) (other : ν) :
    t.toList = t.keys.map (fun k => (k, (t.find? k).getD other)) := by
  have hin : ∀ entries : List (κ × ν), (entries.map Prod.fst).Nodup →
      entries = (entries.map Prod.fst).map (fun k => (k, (findIn k entries).getD other)) := by
    intro entries
    induction entries with
    | nil => exact fun _ => rfl
    | cons entry rest ih =>
        intro hnodup
        obtain ⟨hnew, hrest⟩ := List.nodup_cons.mp hnodup
        rw [List.map_cons, List.map_cons, findIn, if_pos rfl, Option.getD_some]
        refine congrArg (entry :: ·) ((ih hrest).trans (List.map_congr_left (fun k hk => ?_)))
        have hne : entry.1 ≠ k := fun heq => hnew (heq ▸ hk)
        rw [findIn, if_neg hne]
  exact hin t.toList h

theorem Groups.toList_eq {l : List α} {t : Table κ (List α)} (h : Groups key l t) :
    t.toList = (l.map key).eraseDups.map (fun k => (k, l.filter (fun a => key a = k))) := by
  rw [toList_of_nodup h.distinct [], h.keys]
  simp only [h.items]

end Table

/-- A list is put together from what it has under each key. -/
theorem perm_flatMap_filter {α κ : Type} [DecidableEq κ] (key : α → κ) {keys : List κ}
    (hdistinct : keys.Nodup) {l : List α} (hall : ∀ a ∈ l, key a ∈ keys) :
    (keys.flatMap (fun k => l.filter (fun a => key a = k))).Perm l := by
  induction keys generalizing l with
  | nil =>
      rw [List.eq_nil_iff_forall_not_mem.mpr (fun a ha => List.not_mem_nil (hall a ha))]
      exact .nil
  | cons k keys ih =>
      obtain ⟨hnew, hrest⟩ := List.nodup_cons.mp hdistinct
      -- what is not under the first key is put together from the others
      have hothers : ∀ a ∈ l.filter (fun a => !decide (key a = k)), key a ∈ keys := by
        intro a ha
        obtain ⟨hmem, hne⟩ := List.mem_filter.mp ha
        exact (List.mem_cons.mp (hall a hmem)).resolve_left (by simpa using hne)
      have hsame : ∀ k' ∈ keys, (l.filter (fun a => !decide (key a = k))).filter (fun a => key a = k') =
          l.filter (fun a => key a = k') := by
        intro k' hk'
        rw [List.filter_filter]
        refine List.filter_congr (fun a _ => ?_)
        by_cases ha : key a = k'
        · have hne : k' ≠ k := fun heq => hnew (heq ▸ hk')
          simp [ha, hne]
        · simp [ha]
      have hperm := ih hrest hothers
      rw [List.flatMap_congr hsame] at hperm
      rw [List.flatMap_cons]
      exact (hperm.append_left _).trans (List.filter_append_perm _ l)

-- ── Digits ──────────────────────────────────────────────────────────────────

/-- The characters that have a value as digits. -/
theorem digitValue?_eq_some {c : Char} {d : Nat} (h : digitValue? c = some d) :
    (48 ≤ c.toNat ∧ c.toNat ≤ 57 ∧ d = c.toNat - 48) ∨
      (97 ≤ c.toNat ∧ c.toNat ≤ 122 ∧ d = c.toNat - 97 + 10) ∨
      (65 ≤ c.toNat ∧ c.toNat ≤ 90 ∧ d = c.toNat - 65 + 10) := by
  unfold digitValue? at h
  split at h
  · rename_i hc
    exact Or.inl ⟨hc.1, hc.2, (Option.some.inj h).symm⟩
  · split at h
    · rename_i hc
      exact Or.inr (Or.inl ⟨hc.1, hc.2, (Option.some.inj h).symm⟩)
    · split at h
      · rename_i hc
        exact Or.inr (Or.inr ⟨hc.1, hc.2, (Option.some.inj h).symm⟩)
      · cases h

/-- A digit in a base up to sixteen is a figure or one of the first six letters. -/
theorem toNat_of_isDigitIn {base : Nat} (hbase : base ≤ 16) {c : Char} (h : isDigitIn base c = true) :
    (48 ≤ c.toNat ∧ c.toNat ≤ 57) ∨ (97 ≤ c.toNat ∧ c.toNat ≤ 102) ∨ (65 ≤ c.toNat ∧ c.toNat ≤ 70) := by
  unfold isDigitIn at h
  split at h
  · rename_i d hd
    have hlt := of_decide_eq_true h
    have := digitValue?_eq_some hd
    omega
  · cases h

/-- Digits are read as the number that they write: no blank, sign or mark stands in front of them. -/
theorem readInteger_digits {base : Nat} (hbase : base ≤ 16) {digits : List Char}
    (hdigits : ∀ c ∈ digits, isDigitIn base c = true) (hsome : digits ≠ []) :
    Number.readInteger base (String.ofList digits) = .ofDigits base digits := by
  -- what may stand in front of digits is none of them
  have hcode : ∀ c ∈ digits, Text.isBlank c = false ∧ c ≠ '-' ∧ c ≠ '+' ∧ c ≠ 'x' ∧ c ≠ 'X' := by
    intro c hc
    have hrange := toNat_of_isDigitIn hbase (hdigits c hc)
    refine ⟨?_, ?_, ?_, ?_, ?_⟩
    · simp [Text.isBlank, Text.otherBlanks]
      omega
    all_goals
      rintro rfl
      revert hrange
      decide
  have hblanks : digits.dropWhile Text.isBlank = digits := by
    obtain ⟨c, rest, rfl⟩ := List.exists_cons_of_ne_nil hsome
    rw [List.dropWhile_cons_of_neg (by rw [(hcode c (List.mem_cons_self ..)).1]; decide)]
  have hsign : Number.takeSign digits = (false, digits) := by
    unfold Number.takeSign
    split
    · exact absurd rfl (hcode _ (List.mem_cons_self ..)).2.1
    · exact absurd rfl (hcode _ (List.mem_cons_self ..)).2.2.1
    · rfl
  have hmark : Number.dropMark base digits = digits := by
    unfold Number.dropMark
    split
    · exact absurd rfl (hcode _ (List.mem_cons_of_mem _ (List.mem_cons_self ..))).2.2.2.1
    · exact absurd rfl (hcode _ (List.mem_cons_of_mem _ (List.mem_cons_self ..))).2.2.2.2
    · rfl
  have hall : digits.takeWhile (isDigitIn base) = digits := by
    rw [← List.append_nil digits, List.takeWhile_append_of_pos hdigits]
    rfl
  simp only [Number.readInteger, String.toList_ofList, hblanks, hsign, hmark, hall]
  cases digits with
  | nil => exact absurd rfl hsome
  | cons c rest => rfl

/-- Digits behind digits. -/
theorem natOfDigits_append (base : Nat) (front back : List Char) :
    natOfDigits base (front ++ back) =
      natOfDigits base front * base ^ back.length + natOfDigits base back := by
  have hfold : ∀ (digits : List Char) (start : Nat),
      digits.foldl (fun n c => n * base + (digitValue? c).getD 0) start =
        start * base ^ digits.length + natOfDigits base digits := by
    intro digits
    induction digits with
    | nil => simp [natOfDigits]
    | cons c rest ih =>
        intro start
        rw [natOfDigits, List.foldl_cons, List.foldl_cons, ih, ih, List.length_cons, Nat.pow_succ]
        ring
  rw [natOfDigits, List.foldl_append]
  exact hfold back _

/-- Digits write zero if they are all zeros. -/
theorem natOfDigits_eq_zero_iff {base : Nat} (hbase : 0 < base) {digits : List Char}
    (hdigits : ∀ c ∈ digits, isDigitIn base c = true) :
    natOfDigits base digits = 0 ↔ ∀ c ∈ digits, c = '0' := by
  induction digits with
  | nil => exact iff_of_true rfl (fun c hc => absurd hc List.not_mem_nil)
  | cons c rest ih =>
      have hfirst : natOfDigits base [c] = 0 ↔ c = '0' := by
        constructor
        · intro hzero
          have hdigit := hdigits c (List.mem_cons_self ..)
          unfold isDigitIn at hdigit
          split at hdigit
          · rename_i d hd
            have hvalue : d = 0 := by simpa [natOfDigits, hd] using hzero
            have hcode := digitValue?_eq_some hd
            exact Char.toNat_inj.mp (by show c.toNat = 48; omega)
          · cases hdigit
        · rintro rfl
          exact Nat.zero_mul base
      have hshift : 0 < base ^ rest.length := Nat.pow_pos hbase
      rw [List.forall_mem_cons, ← ih (fun c hc => hdigits c (List.mem_cons_of_mem _ hc)), ← hfirst,
        ← List.singleton_append, natOfDigits_append, Nat.add_eq_zero_iff, Nat.mul_eq_zero]
      constructor
      · rintro ⟨hzero | hzero, hrest⟩
        · exact ⟨hzero, hrest⟩
        · omega
      · rintro ⟨hzero, hrest⟩
        exact ⟨Or.inl hzero, hrest⟩

/-- Digits are read as a small number only if they write it. -/
theorem ofDigits_eq_ofNat_iff {base n : Nat} (hn : n < 2 ^ 52) {digits : List Char} :
    Number.ofDigits base digits = .ofNat n ↔ natOfDigits base digits = n := by
  rcases Nat.lt_or_ge Number.exactLimit (natOfDigits base digits) with hlarge | hexact
  · have hlimit : n < Number.exactLimit := Nat.lt_trans hn (by decide)
    exact iff_of_false (Number.ofRat_ne_of_large hlarge hn) (by omega)
  · rw [Source.ofDigits_of_le rfl hexact]
    exact ⟨fun h => Number.ofNat_injective h, fun h => congrArg Number.ofNat h⟩

-- ── Stops ───────────────────────────────────────────────────────────────────

/-- What a program asks a debugger to stop at: a place in the program or in memory, or a line of the
    screen, and for a cell a condition. -/
structure Stop where
  kind : BreakpointKind
  location : Number
  condition : String
  deriving DecidableEq

namespace Stop

/-- Addresses are below `2^16`, and lines are below `2^53`. -/
def limit : BreakpointKind → Nat
  | .execution | .memory => 65536
  | .raster => 2 ^ 53

/-- The location is a natural number below the limit of its kind. -/
def IsPlain (stop : Stop) : Prop := ∃ n, n < limit stop.kind ∧ stop.location = .ofNat n

/-- The breakpoint that is recorded of a stop. -/
def breakpoint (stop : Stop) : Breakpoint where
  kind := stop.kind
  params := match stop.kind with
    | .execution => stop.location.hexText
    | .memory => stop.location.hexText ++ stop.condition
    | .raster => stop.location.text

/-- The hexadecimal digits that a condition starts with. -/
def leadingDigits (stop : Stop) : List Char := stop.condition.toList.takeWhile (isDigitIn 16)

/-- The location that is read from what is recorded: digits that a condition starts with count as digits
    of the address in front of them. -/
def readLocation (stop : Stop) : Number :=
  match stop.kind with
  | .memory => .ofDigits 16 (stop.location.hexText.toList ++ stop.leadingDigits)
  | _ => stop.location

/-- A condition that can be told from the address in front of it. -/
def IsApart (stop : Stop) : Prop :=
  stop.kind = .memory → stop.leadingDigits = [] ∨ stop.location = 0 ∧ ∀ c ∈ stop.leadingDigits, c = '0'

theorem breakpointAddress_breakpoint {stop : Stop} (h : stop.IsPlain) :
    DebuggerFile.breakpointAddress stop.breakpoint = stop.readLocation := by
  obtain ⟨kind, location, condition⟩ := stop
  obtain ⟨n, hn, hlocation⟩ := h
  obtain rfl : location = .ofNat n := hlocation
  cases kind with
  | execution =>
      have hlimit : limit .execution ≤ Number.exactLimit := by decide
      have hexact : n ≤ Number.exactLimit := Nat.le_trans (Nat.le_of_lt hn) hlimit
      show Number.readInteger 16 (Number.ofNat n).hexText = .ofNat n
      rw [Number.hexText_ofNat,
        readInteger_digits (Nat.le_refl 16) (Source.hexDigits_read n).1 (Source.hexDigits_ne_nil n)]
      exact Source.ofDigits_of_le (Source.hexDigits_read n).2 hexact
  | memory =>
      show Number.ofDigits 16 (((Number.ofNat n).hexText ++ condition).toList.takeWhile (isDigitIn 16)) = _
      have hdigits : ∀ c ∈ (Number.ofNat n).hexText.toList, isDigitIn 16 c = true := by
        rw [Number.hexText_ofNat, String.toList_ofList]
        exact (Source.hexDigits_read n).1
      rw [String.toList_append, List.takeWhile_append_of_pos hdigits]
      rfl
  | raster =>
      have hexact : n ≤ Number.exactLimit := Nat.le_of_lt hn
      have hread : (∀ c ∈ Nat.toDigits 10 n, isDigitIn 10 c = true) ∧
          natOfDigits 10 (Nat.toDigits 10 n) = n := Source.toDigits_read (by decide) (by decide) n
      show Number.readInteger 10 (Number.ofNat n).text = .ofNat n
      rw [Number.text_ofNat hexact, readInteger_digits (by decide) hread.1 Nat.toDigits_ne_nil]
      exact Source.ofDigits_of_le hread.2 hexact

/-- A location is read as it was given exactly if the condition can be told from it. -/
theorem readLocation_eq_iff {stop : Stop} (h : stop.IsPlain) :
    stop.readLocation = stop.location ↔ stop.IsApart := by
  obtain ⟨kind, location, condition⟩ := stop
  obtain ⟨n, hn, hlocation⟩ := h
  obtain rfl : location = .ofNat n := hlocation
  cases kind with
  | execution => exact iff_of_true rfl (fun hkind => by cases hkind)
  | raster => exact iff_of_true rfl (fun hkind => by cases hkind)
  | memory =>
      have hsmall : n < 65536 := hn
      rw [IsApart, imp_iff_right rfl]
      show Number.ofDigits 16 ((Number.ofNat n).hexText.toList ++ condition.toList.takeWhile (isDigitIn 16)) =
        .ofNat n ↔ condition.toList.takeWhile (isDigitIn 16) = [] ∨
          Number.ofNat n = .ofNat 0 ∧ ∀ c ∈ condition.toList.takeWhile (isDigitIn 16), c = '0'
      have hleading : ∀ c ∈ condition.toList.takeWhile (isDigitIn 16), isDigitIn 16 c = true :=
        fun c hc => List.all_eq_true.mp (List.all_takeWhile ..) c hc
      generalize condition.toList.takeWhile (isDigitIn 16) = leading at hleading ⊢
      rw [Number.hexText_ofNat, String.toList_ofList, ofDigits_eq_ofNat_iff (by omega), natOfDigits_append,
        (Source.hexDigits_read n).2, ← natOfDigits_eq_zero_iff (by decide) hleading]
      cases leading with
      | nil => exact iff_of_true (by simp [natOfDigits]) (Or.inl rfl)
      | cons c rest =>
          -- the address is shifted by the digits behind it
          have hshift : 16 ≤ 16 ^ (c :: rest).length := Nat.le_self_pow (by simp) 16
          constructor
          · intro hsame
            have hzero : n = 0 := by nlinarith
            subst hzero
            exact Or.inr ⟨rfl, by omega⟩
          · rintro (hnil | ⟨hzero, hrest⟩)
            · cases hnil
            · rw [Number.ofNat_injective hzero, hrest]
              simp

-- ── The exported document ───────────────────────────────────────────────────

/-- A stop as an object, with the location that is shown of it. -/
def item (shown : Stop → Number) (stop : Stop) : Json :=
  .object ([("IsActive", .bool true), ("Addr", .number (shown stop)), ("Actions", .number 2),
    ("Data", .number 0)] ++
      if stop.kind = .memory then
        [("MemoryAccess", .number 6), ("Value", .number 255), ("Comparison", .number 2)]
      else [])

/-- Stops by kind: kinds in order of first appearance, and the stops of a kind in their order. -/
def groups (stops : List Stop) : List (BreakpointKind × List Stop) :=
  (stops.map kind).eraseDups.map (fun kind => (kind, stops.filter (fun stop => stop.kind = kind)))

/-- Stops as objects, grouped by kind. -/
def document (shown : Stop → Number) (stops : List Stop) : List Json :=
  (groups stops).map (fun group =>
    .object [("Type", .text (DebuggerFile.kindName group.1)), ("Items", .list (group.2.map (item shown)))])

/-- The groups hold every stop once. -/
theorem perm_groups (stops : List Stop) : ((groups stops).flatMap Prod.snd).Perm stops := by
  rw [groups, List.flatMap_map]
  refine perm_flatMap_filter kind ?_ (fun stop h => ?_)
  · have hfiled := (Table.Groups.empty kind).foldl stops
    rw [List.nil_append] at hfiled
    exact hfiled.keys ▸ hfiled.distinct
  · rw [List.mem_eraseDups]
    exact List.mem_map_of_mem h

theorem breakpointItem_breakpoint {stop : Stop} (h : stop.IsPlain) :
    DebuggerFile.breakpointItem stop.breakpoint = stop.item readLocation := by
  have haddress := breakpointAddress_breakpoint h
  obtain ⟨kind, location, condition⟩ := stop
  cases kind with
  | execution | memory | raster =>
      exact congrArg (fun address => Json.object (_ :: ("Addr", .number address) :: _)) haddress

/-- What is recorded of stops is exported with the locations that are read from it. -/
theorem breakpoints_export {stops : List Stop} (h : ∀ stop ∈ stops, stop.IsPlain) :
    DebuggerFile.breakpoints (stops.map breakpoint) =
      DebuggerFile.segment "Breakpoints" (document readLocation stops) := by
  have hfiled : Table.Groups Breakpoint.kind (stops.map breakpoint)
      (DebuggerFile.byKind (stops.map breakpoint)) := by
    have hfold := (Table.Groups.empty Breakpoint.kind).foldl (stops.map breakpoint)
    rwa [List.nil_append] at hfold
  have hkinds : (stops.map breakpoint).map Breakpoint.kind = stops.map kind := List.map_map
  have hitems : ∀ k : BreakpointKind,
      ((stops.map breakpoint).filter (fun b => b.kind = k)).map DebuggerFile.breakpointItem =
        (stops.filter (fun stop => stop.kind = k)).map (item readLocation) := by
    intro k
    rw [List.filter_map, List.map_map]
    refine List.map_congr_left (fun stop hstop => ?_)
    exact breakpointItem_breakpoint (h stop (List.mem_of_mem_filter hstop))
  rw [DebuggerFile.breakpoints, hfiled.toList_eq, hkinds, document, groups, List.map_map, List.map_map]
  refine congrArg _ (List.map_congr_left (fun k _ => ?_))
  simp only [Function.comp_apply, hitems]

/-- Two documents of the same stops are equal exactly if they show the same locations. -/
theorem document_inj {shown shown' : Stop → Number} {stops : List Stop} :
    document shown stops = document shown' stops ↔ ∀ stop ∈ stops, shown stop = shown' stop := by
  rw [document, document, List.map_inj_left]
  constructor
  · intro hsame stop hstop
    have hgroup : (stop.kind, stops.filter (fun other => other.kind = stop.kind)) ∈ groups stops :=
      List.mem_map_of_mem (List.mem_eraseDups.mpr (List.mem_map_of_mem hstop))
    have hitems := hsame _ hgroup
    simp only [Json.object.injEq, List.cons.injEq, Prod.mk.injEq, Json.list.injEq, true_and, and_true,
      List.map_inj_left] at hitems
    have hitem := hitems stop (List.mem_filter.mpr ⟨hstop, decide_eq_true rfl⟩)
    simp only [item, Json.object.injEq, List.cons_append, List.cons.injEq, Prod.mk.injEq, Json.number.injEq,
      true_and] at hitem
    exact hitem.1
  · intro hsame group hgroup
    obtain ⟨k, -, rfl⟩ := List.mem_map.mp hgroup
    have hitems : (stops.filter (fun stop => stop.kind = k)).map (item shown) =
        (stops.filter (fun stop => stop.kind = k)).map (item shown') :=
      List.map_congr_left (fun stop hstop => by rw [item, item, hsame stop (List.mem_of_mem_filter hstop)])
    rw [hitems]

end Stop

-- ── What a program records ──────────────────────────────────────────────────

/-- The same breakpoints, in the same pass. -/
structure Session.SameStops (s t : Session) : Prop where
  pass : t.pass = s.pass
  breakpoints : t.breakpoints = s.breakpoints

namespace Session.SameStops

theorem refl (s : Session) : s.SameStops s := ⟨rfl, rfl⟩

theorem trans (r s t : Session) (h : r.SameStops s) (h' : s.SameStops t) : r.SameStops t :=
  ⟨h'.pass.trans h.pass, h'.breakpoints.trans h.breakpoints⟩

theorem resolve (name : String) : Moves Session.SameStops (Assembly.resolve name) :=
  Assembly.moves_resolve (fun _ _ => ⟨rfl, rfl⟩) name

theorem storeByte (address value : Number) : Moves Session.SameStops (Assembly.storeByte address value) :=
  Assembly.moves_storeByte refl (fun _ _ _ => ⟨rfl, rfl⟩) address value

end Session.SameStops

/-- Emitting records no stop. -/
theorem followed_sameStops : FollowedByOperations Session.SameStops where
  refl := .refl
  trans := .trans
  resolve := .resolve
  evaluate := Assembly.moves_evaluate .refl .trans .resolve
  storeByte := .storeByte
  emitByte := Assembly.moves_emitByte .refl .trans .storeByte (fun _ => ⟨rfl, rfl⟩)
  label := Assembly.moves_label (fun _ _ => ⟨rfl, rfl⟩)
  org _ _ := ⟨rfl, rfl⟩
  pin _ _ := ⟨rfl, rfl⟩
  countInstruction _ := ⟨rfl, rfl⟩
  entrypoint _ := ⟨rfl, rfl⟩

theorem sameStops_setup (options : Assembly.Setup) : Moves Session.SameStops (Assembly.setup options) := by
  intro s
  rw [Assembly.exec_setup]
  cases s.cursor.setStart options.start with
  | error fault => exact .refl s
  | ok cursor =>
      dsimp only
      cases s.memory.declared options cursor.start with
      | error fault => exact ⟨rfl, rfl⟩
      | ok memory => exact ⟨rfl, rfl⟩

theorem sameStops_watch (target : Assembly.WatchTarget) :
    Moves Session.SameStops (Assembly.watch target) :=
  Assembly.moves_watch .refl .trans .resolve (fun _ _ => ⟨rfl, rfl⟩) target

theorem Assembly.exec_breakpoint_final (kind : BreakpointKind) (params : String) {s : Session}
    (hfinal : s.pass = .final) :
    (breakpoint kind params).exec s =
      (.ok (), { s with breakpoints := s.breakpoints ++ [⟨kind, params⟩] }) := by
  rw [breakpoint, Action.exec_modify, if_pos (by rw [hfinal]; rfl)]

namespace Command

/-- What a command asks to stop at, in a session. -/
def stop? (c : Command) (s : Session) : Option Stop :=
  match c with
  | .breakHere => some ⟨.execution, s.cursor.position, ""⟩
  | .breakOnMemory address condition => some ⟨.memory, address, condition⟩
  | .breakOnRaster line => some ⟨.raster, line, ""⟩
  | _ => none

variable {render : Nat → Assembly Unit}

/-- In the final pass a command records what it asks to stop at. -/
theorem records_run {c : Command} (hc : c.isSimple = true) {s : Session} (hfinal : s.pass = .final) :
    ((c.run render).exec s).2.pass = .final ∧
    ((c.run render).exec s).2.breakpoints = s.breakpoints ++ (c.stop? s).toList.map Stop.breakpoint := by
  have hkeep : ∀ {t : Session}, s.SameStops t → t.pass = .final ∧ t.breakpoints = s.breakpoints ++ [] :=
    fun h => ⟨h.pass.trans hfinal, by rw [h.breakpoints, List.append_nil]⟩
  rcases Bool.or_eq_true_iff.mp hc with hemitting | hupkeep
  · have hsame : s.SameStops ((c.run render).exec s).2 := followed_sameStops.run render hemitting s
    cases c with
    | breakHere | breakOnMemory _ _ | breakOnRaster _ => cases hemitting
    | _ => exact hkeep hsame
  · cases c with
    | cursor command => exact hkeep ⟨rfl, rfl⟩
    | symbols command => exact hkeep ⟨rfl, rfl⟩
    | setup options =>
        refine hkeep ?_
        exact Moves.answering Session.SameStops.refl Session.SameStops.trans (sameStops_setup options) _ s
    | watch target =>
        refine hkeep ?_
        exact Moves.answering Session.SameStops.refl Session.SameStops.trans (sameStops_watch target) _ s
    | breakHere =>
        have hhere : Assembly.breakHere.exec s =
            (Assembly.breakpoint .execution s.cursor.position.hexText).exec s := rfl
        rw [run, Action.exec_answering, hhere, Assembly.exec_breakpoint_final _ _ hfinal]
        exact ⟨hfinal, rfl⟩
    | breakOnMemory address condition =>
        rw [run, Action.exec_answering, Assembly.breakOnMemory, Assembly.exec_breakpoint_final _ _ hfinal]
        exact ⟨hfinal, rfl⟩
    | breakOnRaster line =>
        rw [run, Action.exec_answering, Assembly.breakOnRaster, Assembly.exec_breakpoint_final _ _ hfinal]
        exact ⟨hfinal, rfl⟩
    | _ => cases hupkeep

end Command

/-- What a command asks to stop at when it works. -/
def Moment.stop? (m : Moment) : Option Stop := m.command.stop? m.before

/-- Along a chain in the final pass the stops of its moments are recorded, in their order. -/
theorem Chain.records {render : Nat → Assembly Unit} {s t : Session} {ms : List Moment}
    (h : Chain render s ms t) (hsimple : ∀ m ∈ ms, m.command.isSimple = true) (hfinal : s.pass = .final) :
    t.breakpoints = s.breakpoints ++ (ms.filterMap Moment.stop?).map Stop.breakpoint := by
  induction h with
  | nil hlinked =>
      obtain ⟨scopes, journal, rfl⟩ := hlinked
      exact (List.append_nil _).symm
  | @cons s t m ms hlinked hrun _ ih =>
      -- between moments only scopes and reports change
      have hbefore : m.before.pass = .final ∧ m.before.breakpoints = s.breakpoints := by
        obtain ⟨scopes, journal, heq⟩ := hlinked
        rw [heq]
        exact ⟨hfinal, rfl⟩
      have hafter : m.after.pass = .final ∧
          m.after.breakpoints = m.before.breakpoints ++ m.stop?.toList.map Stop.breakpoint :=
        hrun ▸ Command.records_run (hsimple m (List.mem_cons_self ..)) hbefore.1
      have hcons : (m :: ms).filterMap Moment.stop? = m.stop?.toList ++ ms.filterMap Moment.stop? := by
        rw [List.filterMap_cons]
        cases m.stop? <;> rfl
      rw [ih (fun m' hm' => hsimple m' (List.mem_cons_of_mem _ hm')) hafter.1, hafter.2, hbefore.2, hcons,
        List.map_append, List.append_assoc]

/-- A tree of operations that runs in the final pass records what its commands ask to stop at, whether it
    completes or fails. -/
theorem breakpoints_runAll (catalogue : Catalogue) (depth : Nat) {commands : List Command}
    (hcommands : Command.everyOf Command.isOperation commands = true) {s : Session}
    (hfinal : s.pass = .final) :
    ((Command.runAll (catalogue.render depth) commands).exec s).2.breakpoints = s.breakpoints ++
      ((Command.momentsOf (catalogue.render depth) s.owner commands s).filterMap Moment.stop?).map
        Stop.breakpoint := by
  have hrender : ∀ serial, Moves Session.SameScopes (catalogue.render depth serial) :=
    fun serial => followed_sameScopes.render catalogue depth serial
  have hproper := Command.proper_momentsOf hrender commands hcommands s rfl
  exact (Command.chain_momentsOf s.owner commands s).records (fun m hm => (hproper m hm).simple) hfinal

-- ── The export carries the locations ────────────────────────────────────────

/-- A tree of operations that runs in the final pass, completing or failing, has its stops exported: each of
    them once, grouped by kind, with kinds in order of first appearance and stops of a kind in the order of
    the calls. All are shown with the locations that were asked for exactly if every condition on a cell can
    be told from the address in front of it. Else the digits that it starts with are read as digits of the
    address. -/
theorem stops_are_exported (catalogue : Catalogue) (depth : Nat) {commands : List Command}
    (hcommands : Command.everyOf Command.isOperation commands = true) {s : Session}
    (hfinal : s.pass = .final) (hnone : s.breakpoints = []) {stops : List Stop}
    (hstops : (Command.momentsOf (catalogue.render depth) s.owner commands s).filterMap Moment.stop? = stops)
    (hplain : ∀ stop ∈ stops, stop.IsPlain) :
    DebuggerFile.breakpoints ((Command.runAll (catalogue.render depth) commands).exec s).2.breakpoints =
      DebuggerFile.segment "Breakpoints" (Stop.document Stop.readLocation stops) ∧
    ((Stop.groups stops).flatMap Prod.snd).Perm stops ∧
    (Stop.document Stop.readLocation stops = Stop.document Stop.location stops ↔
      ∀ stop ∈ stops, stop.IsApart) := by
  refine ⟨?_, Stop.perm_groups stops, ?_⟩
  · rw [breakpoints_runAll catalogue depth hcommands hfinal, hnone, hstops, List.nil_append]
    exact Stop.breakpoints_export hplain
  · rw [Stop.document_inj]
    exact forall₂_congr (fun stop hstop => Stop.readLocation_eq_iff (hplain stop hstop))

/-- A session in which the final pass begins. -/
def finalBeginning : Session := { Source.plainSession with pass := .final }

/-- Stops of all kinds, in scopes and before a failure. -/
def markedProgram : List Command :=
  [.breakOnMemory 0xd020 "==5",
    .withOwner "screen" [.breakOnRaster 255, .nop (some 3), .breakHere],
    .attempt [.breakOnMemory 0 "00 > 1", .emitByte 256],
    .subroutine "leave" [.breakHere]]

/-- The stops of `markedProgram`. -/
def markedStops : List Stop :=
  [⟨.memory, 0xd020, "==5"⟩, ⟨.raster, 255, ""⟩, ⟨.execution, 0x1003, ""⟩, ⟨.memory, 0, "00 > 1"⟩,
    ⟨.execution, 0x1003, ""⟩]

theorem marked_stops_are_exported :
    DebuggerFile.breakpoints ((Catalogue.runAll [] markedProgram).exec finalBeginning).2.breakpoints =
      DebuggerFile.segment "Breakpoints" (Stop.document Stop.location markedStops) ∧
    ((Stop.groups markedStops).flatMap Prod.snd).Perm markedStops := by
  have hcommands : Command.everyOf Command.isOperation markedProgram = true := by decide
  have hstops : (Command.momentsOf (Catalogue.render [] (Catalogue.nestingLimit [])) finalBeginning.owner
      markedProgram finalBeginning).filterMap Moment.stop? = markedStops := by decide +kernel
  have hplain : ∀ stop ∈ markedStops, stop.IsPlain := by
    intro stop hstop
    simp only [markedStops, List.mem_cons, List.not_mem_nil, or_false] at hstop
    rcases hstop with rfl | rfl | rfl | rfl | rfl
    exacts [⟨0xd020, by decide, rfl⟩, ⟨255, by decide, rfl⟩, ⟨0x1003, by decide, rfl⟩, ⟨0, by decide, rfl⟩,
      ⟨0x1003, by decide, rfl⟩]
  have hapart : ∀ stop ∈ markedStops, stop.IsApart := by
    intro stop hstop hkind
    simp only [markedStops, List.mem_cons, List.not_mem_nil, or_false] at hstop
    rcases hstop with rfl | rfl | rfl | rfl | rfl
    · exact Or.inl (by decide)
    · cases hkind
    · cases hkind
    · have hzeros : Stop.leadingDigits ⟨.memory, 0, "00 > 1"⟩ = List.replicate 2 '0' := by decide
      exact Or.inr ⟨rfl, fun c hc => List.eq_of_mem_replicate (hzeros ▸ hc)⟩
    · cases hkind
  obtain ⟨hexport, hperm, hshown⟩ :=
    stops_are_exported [] (Catalogue.nestingLimit []) hcommands rfl rfl hstops hplain
  rw [hshown.mpr hapart] at hexport
  exact ⟨hexport, hperm⟩

/-- A condition that starts with a hexadecimal digit. -/
theorem joined_condition_moves_stop :
    DebuggerFile.breakpoints
        ((Catalogue.runAll [] [.breakOnMemory 0x10 "a==5"]).exec finalBeginning).2.breakpoints =
      DebuggerFile.segment "Breakpoints" (Stop.document (fun _ => 0x10a) [⟨.memory, 0x10, "a==5"⟩]) ∧
    DebuggerFile.breakpoints
        ((Catalogue.runAll [] [.breakOnMemory 0x10 "a==5"]).exec finalBeginning).2.breakpoints ≠
      DebuggerFile.segment "Breakpoints" (Stop.document Stop.location [⟨.memory, 0x10, "a==5"⟩]) := by
  decide +kernel

end Asm6502
