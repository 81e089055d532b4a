import Asm6502.Proofs.EmitEffect
import Asm6502.Proofs.Operations

/-!
# Fills at the cursor

A fill stores its bytes at addresses counted from where it begins, and moves the cursor once, over all of
them, in the end. Emitting the same bytes one by one stores each of them at the cursor and moves on. At the
cursor the two are the same: they complete in the same sessions, and leave the same session behind.

* `Session.movedTo`: a session with the cursor somewhere else.
* `exec_emitByte_movedTo`: emitting a byte is storing it where the cursor stands, and a move.
* `exec_times_emitByte`: so a loop that emits keeps beside the loop that stores, up to the cursor.
* `fill_agrees_with_byte`: a fill at the cursor and the bytes that it takes.
-/

namespace Asm6502

open Asm6502.Action (Moves)

-- ── Numbers of the machine ──────────────────────────────────────────────────

namespace Number

/-- Whether a number is a binary64 value: rounding leaves it as it is. -/
def IsBinary64 : Number → Prop
  | .finite q => ofRat q = .finite q
  | _ => True

theorem isBinary64_ofNat {n : Nat} (h : n ≤ exactLimit) : (ofNat n).IsBinary64 := by
  show ofRat (n : Rat) = ofNat n
  rw [ofNat_eq_ofInt, ← ofRat_intCast (n := n) (by omega), Rat.intCast_natCast]

/-- Nothing added leaves a number of the machine as it is. -/
theorem IsBinary64.add_zero {x : Number} (h : x.IsBinary64) : x + ofNat 0 = x := by
  cases x with
  | nan => rfl
  | infinite negative => rfl
  | finite q =>
      show ofRat (q + 0) = .finite q
      rw [Rat.add_zero]
      exact h

@[simp] theorem rounds_ofNat (n : Nat) : (ofNat n).rounds = n := by
  show (n : Rat).ceil.toNat = n
  rw [← Rat.intCast_natCast, Rat.ceil_intCast]
  rfl

end Number

-- ── Storing and emitting ────────────────────────────────────────────────────

/-- The session with the cursor at another place. -/
def Session.movedTo (s : Session) (place : Number) : Session :=
  { s with cursor := s.cursor.jump place }

theorem Session.movedTo_position (s : Session) : s.movedTo s.cursor.position = s := rfl

namespace Assembly

/-- Emitting a byte is storing it where the cursor stands; the cursor moves on if that succeeds. -/
theorem exec_emitByte_movedTo (place v : Number) (s : Session) :
    (emitByte v).exec (s.movedTo place) =
      match (storeByte place v).exec s with
      | (.ok _, t) => (.ok (), t.movedTo (place + 1))
      | (.error fault, t) => (.error fault, t.movedTo place) := by
  have hplace : (s.movedTo place).cursor.position = place := rfl
  have howner : (s.movedTo place).owner = s.owner := rfl
  have hmemory : (s.movedTo place).memory = s.memory := rfl
  rw [exec_emitByte, exec_storeByte, hplace, howner, hmemory]
  cases Image.checkWrite place v s.owner with
  | error fault => rfl
  | ok w =>
      dsimp only
      cases s.memory.store w <;> rfl

/-- Storing at counted addresses and emitting at the cursor, round by round: the outcome is the same and so
    is the session, up to its cursor. A loop that completes leaves the cursor behind the last byte. -/
theorem exec_times_emitByte (values : Nat → Number) {place : Nat} (n i : Nat) (s : Session)
    (hfits : place + i ≤ 65536) :
    ∃ cursor,
      (Action.times (fun j => emitByte (values j)) n i).exec (s.movedTo (.ofNat (place + i))) =
        (((Action.times (fun j => storeByte (.ofNat place + .ofNat j) (values j)) n i).exec s).1,
          ((Action.times (fun j => storeByte (.ofNat place + .ofNat j) (values j)) n i).exec s).2.movedTo
            cursor) ∧
      (((Action.times (fun j => storeByte (.ofNat place + .ofNat j) (values j)) n i).exec s).1 = .ok () →
        cursor = .ofNat (place + (i + n)) ∧ place + (i + n) ≤ 65536) := by
  induction n generalizing i s with
  | zero => exact ⟨.ofNat (place + i), rfl, fun _ => ⟨rfl, hfits⟩⟩
  | succ n ih =>
      have hat : Number.ofNat place + .ofNat i = .ofNat (place + i) :=
        Number.ofNat_add (by unfold Number.exactLimit; omega)
      have hemit := exec_emitByte_movedTo (.ofNat (place + i)) (values i) s
      rcases exec_storeByte_cases (.ofNat (place + i)) (values i) s with ⟨w, hw, -, hstore⟩ | ⟨fault, hstore⟩
      · rw [hstore] at hemit
        dsimp only at hemit
        -- a byte was stored, so its place is an address and the next one still fits
        obtain ⟨_, haddress, -, -⟩ := Image.checkWrite_eq_ok hw
        have hlt : place + i < 65536 := by
          rw [Number.ofNat_injective (Number.toAddress?_eq_some_iff.mp haddress)]
          exact w.address.toNat_lt
        have hnext : Number.ofNat (place + i) + 1 = .ofNat (place + (i + 1)) :=
          Number.ofNat_add (b := 1) (by unfold Number.exactLimit; omega)
        rw [hnext] at hemit
        obtain ⟨cursor, hrest, hend⟩ := ih (i + 1) (s.stored w) (by omega)
        rw [← hat] at hstore
        rw [Action.times, Action.exec_bind_of_ok hemit, Action.times, Action.exec_bind_of_ok hstore]
        exact ⟨cursor, hrest, fun hok => by rw [← Nat.succ_add_eq_add_succ]; exact hend hok⟩
      · rw [hstore] at hemit
        rw [← hat] at hstore
        rw [Action.times, Action.exec_bind_of_error hemit, Action.times, Action.exec_bind_of_error hstore]
        exact ⟨_, rfl, fun hok => by cases hok⟩

/-- What becomes of a byte that a rule may give: it is written at an address, or nothing happens. -/
theorem exec_storeGiven_cases (x : Number) (v : Option Number) (s : Session) :
    (∃ w, x = .ofAddress w.address ∧ (storeGiven x v).exec s = (.ok (), s.stored w)) ∨
      ∃ fault, (storeGiven x v).exec s = (.error fault, s) := by
  cases v with
  | some v =>
      rcases exec_storeByte_cases x v s with ⟨w, hw, -, hrun⟩ | ⟨fault, hrun⟩
      · obtain ⟨_, haddress, -, -⟩ := Image.checkWrite_eq_ok hw
        exact Or.inl ⟨w, Number.toAddress?_eq_some_iff.mp haddress, hrun⟩
      · exact Or.inr ⟨fault, hrun⟩
  | none =>
      refine Or.inr ?_
      unfold storeGiven
      cases hcheck : checkAddress x with
      | error fault => exact ⟨fault, by rw [Action.exec_bind_of_error (Action.exec_check _ s)]⟩
      | ok a => exact ⟨.missingByte, by rw [Action.exec_bind_of_ok (Action.exec_check _ s)]; rfl⟩

/-- Bytes that a rule may give, stored one after another: if all of them are, then each at its place. The
    cursor stays. -/
theorem exec_times_storeGiven (place : Nat → Number) (byteAt : Nat → Option Number) (n i : Nat)
    (s : Session) :
    ∃ outcome t ws, (Action.times (fun j => storeGiven (place j) (byteAt j)) n i).exec s = (outcome, t) ∧
      t.written = ws ++ s.written ∧ t.cursor = s.cursor ∧
      (outcome = .ok () → ∀ j < n, ∃ w ∈ ws, place (i + j) = .ofAddress w.address) := by
  induction n generalizing i s with
  | zero => exact ⟨.ok (), s, [], rfl, rfl, rfl, fun _ j hj => absurd hj (Nat.not_lt_zero j)⟩
  | succ n ih =>
      rcases exec_storeGiven_cases (place i) (byteAt i) s with ⟨w, hplace, hrun⟩ | ⟨fault, hrun⟩
      · obtain ⟨outcome, t, ws, hloop, hwritten, hcursor, hplaces⟩ := ih (i + 1) (s.stored w)
        refine ⟨outcome, t, ws ++ [w], ?_, ?_, hcursor, fun hok j hj => ?_⟩
        · rw [Action.times, Action.exec_bind_of_ok hrun, hloop]
        · rw [hwritten, List.append_assoc]
          rfl
        · cases j with
          | zero => exact ⟨w, List.mem_append_right ws (List.mem_singleton_self w), hplace⟩
          | succ j =>
              obtain ⟨w', hw', hat⟩ := hplaces hok j (Nat.lt_of_succ_lt_succ hj)
              refine ⟨w', List.mem_append_left [w] hw', ?_⟩
              rwa [Nat.add_right_comm] at hat
      · refine ⟨.error fault, s, [], ?_, rfl, rfl, fun hok => by cases hok⟩
        rw [Action.times, Action.exec_bind_of_error hrun]

-- ── Bytes ───────────────────────────────────────────────────────────────────

/-- A number is emitted as the byte that it is. -/
theorem byteOf_number (v : Number) : byteOf (.number v) = emitByte v := rfl

/-- A call for one byte. -/
theorem byte_singleton (o : Operand) : (do let _ ← byte [o] : Assembly Unit) = byteOf o := by
  simp [byte, Action.each]

/-- Numbers that are emitted as bytes, a call for each of them. -/
theorem times_byte (values : Nat → Number) (n : Nat) :
    Action.times (fun i => do let _ ← byte [.number (values i)]) n 0 =
      Action.times (fun i => emitByte (values i)) n 0 := by
  simp only [byte_singleton, byteOf_number]

/-- Numbers that are emitted as bytes, one call for all of them. -/
theorem byte_range (values : Nat → Number) (n : Nat) :
    byte ((List.range n).map (fun i => .number (values i))) = (do
      Action.times (fun i => emitByte (values i)) n 0
      return n) := by
  have hloop : ∀ n i, Action.each byteOf ((List.range' i n).map (fun i => .number (values i))) =
      Action.times (fun i => emitByte (values i)) n i := by
    intro n
    induction n with
    | zero => exact fun i => rfl
    | succ n ih =>
        intro i
        rw [List.range'_succ, List.map_cons, Action.each, Action.times, ih, byteOf_number]
  rw [byte, List.range_eq_range', hloop, List.length_map, List.length_range']

-- ── Fills ───────────────────────────────────────────────────────────────────

/-- The values that a fill at the cursor takes: zeros, a number over and over, or what a generator gives
    for each index. A number above 255 would be an address instead. -/
inductive FillsHere : List FillArgument → (Nat → Number) → Prop
  | zeros : FillsHere [] (fun _ => 0)
  | data {value : Number} (h : ¬255 < value) : FillsHere [.number value] (fun _ => value)
  | generator (rule : Nat → Number) : FillsHere [.generator (fun i => some (rule i))] rule

/-- A fill at the cursor stores its values from there on, and then moves the cursor. -/
theorem exec_fill_here {args : List FillArgument} {values : Nat → Number} (h : FillsHere args values)
    (length : Number) (s : Session) :
    (fill length args).exec s = (do
      Action.times (fun i => storeByte (s.cursor.position + .ofNat i) (values i)) length.rounds 0
      if s.cursor.position.equals s.cursor.position then
        modify (fun s => { s with cursor := s.cursor.advance length }) : Assembly Unit).exec s := by
  cases h with
  | zeros => rfl
  | generator rule => rfl
  | data hvalue =>
      rename_i value
      have hsort : (liftM (sortFill [.number value]) : Assembly _).exec s = (.ok ([value], none), s) := rfl
      have htarget : (liftM (fillTarget s.cursor.position [value]) : Assembly _).exec s =
          (.ok (s.cursor.position, value), s) := by
        rw [Action.exec_check, fillTarget, if_neg hvalue]
      have hposition : position.exec s = (.ok s.cursor.position, s) := rfl
      rw [fill_eq, Action.exec_bind_of_ok hsort, Action.exec_bind_of_ok hposition,
        Action.exec_bind_of_ok htarget]
      rfl

/-- Storing bytes leaves the cursor where it is. -/
theorem moves_cursor_times_storeByte (place values : Nat → Number) (n i : Nat) :
    Moves (fun s t : Session => t.cursor = s.cursor)
      (Action.times (fun j => storeByte (place j) (values j)) n i) :=
  Moves.times (R := fun s t : Session => t.cursor = s.cursor) (fun _ => rfl)
    (fun _ _ _ h h' => h'.trans h)
    (fun _ => moves_storeByte (R := fun s t : Session => t.cursor = s.cursor) (fun _ => rfl)
      (fun _ _ _ => rfl) _ _) n i

/-- Nothing is stored where there is no address. -/
theorem exec_storeByte_of_no_address {place : Number} (h : place.toAddress? = none) (v : Number)
    (s : Session) : (storeByte place v).exec s = (.error (.addressRange place), s) := by
  have hcheck : Image.checkWrite place v s.owner = .error (.addressRange place) := by
    rw [Image.checkWrite, checkAddress, h]
    rfl
  rw [exec_storeByte, hcheck]

/-- A fill at the cursor completes where emitting its values completes, and leaves the same session. -/
theorem exec_fill_here_eq_ok_iff {args : List FillArgument} {values : Nat → Number}
    (hargs : FillsHere args values) {s : Session} (hcursor : s.cursor.position.IsBinary64) (n : Nat)
    (t : Session) :
    (fill (.ofNat n) args).exec s = (.ok (), t) ↔
      (Action.times (fun i => emitByte (values i)) n 0).exec s = (.ok (), t) := by
  rw [exec_fill_here hargs, Number.rounds_ofNat]
  cases hp : s.cursor.position.toAddress? with
  | none =>
      cases n with
      | zero =>
          -- no byte: the cursor moves by nothing, wherever it stands
          have hmove : s.cursor.advance (.ofNat 0) = s.cursor := by
            rw [Cursor.advance, hcursor.add_zero]
          rw [Action.times, Action.times, Action.exec_bind_of_ok (Action.exec_pure () s)]
          split
          · rw [Action.exec_modify, hmove]
            rfl
          · rfl
      | succ n =>
          -- no address: neither stores a first byte
          have hstore := exec_storeByte_of_no_address hp (values 0) s
          have hemit := exec_emitByte_movedTo s.cursor.position (values 0) s
          rw [hstore, s.movedTo_position] at hemit
          have hfill : (Action.times (fun i => storeByte (s.cursor.position + .ofNat i) (values i))
              (n + 1) 0).exec s = (.error (.addressRange s.cursor.position), s) := by
            rw [Action.times, hcursor.add_zero, Action.exec_bind_of_error hstore]
          rw [Action.exec_bind_of_error hfill, Action.times, Action.exec_bind_of_error hemit]
          exact iff_of_false (fun h => by cases h) (fun h => by cases h)
  | some p =>
      have hplace : s.cursor.position = .ofNat p.toNat := Number.toAddress?_eq_some_iff.mp hp
      have hfits : p.toNat + 0 ≤ 65536 := Nat.le_of_lt p.toNat_lt
      obtain ⟨cursor, hemit, hend⟩ := exec_times_emitByte values n 0 s hfits
      rw [Nat.add_zero, ← hplace, s.movedTo_position] at hemit
      rw [hemit]
      cases hrun : (Action.times (fun i => storeByte (s.cursor.position + .ofNat i) (values i)) n 0).exec s with
      | mk outcome u =>
          rw [← hplace, hrun] at hend
          cases outcome with
          | error fault =>
              rw [Action.exec_bind_of_error hrun]
              exact iff_of_false (fun h => by cases h) (fun h => by cases h)
          | ok done =>
              obtain ⟨rfl, hfits⟩ := hend rfl
              have hstays : u.cursor = s.cursor := (moves_cursor_times_storeByte _ _ n 0).of_exec hrun
              have hmove : u.cursor.advance (.ofNat n) = u.cursor.jump (.ofNat (p.toNat + (0 + n))) := by
                rw [Cursor.advance, hstays, hplace,
                  Number.ofNat_add (by unfold Number.exactLimit; omega), Nat.zero_add]
                rfl
              have hequals : s.cursor.position.equals s.cursor.position = true := by
                rw [hplace]
                exact (Number.equals_iff (fun h => by cases h)).mpr rfl
              rw [Action.exec_bind_of_ok hrun, if_pos hequals, Action.exec_modify, hmove]
              rfl

end Assembly

/-- A fill at the cursor is the same as emitting its values as bytes, one call after another or all in one
    call. It completes in the same sessions, and leaves the same session: cells and owners, the cursor, what
    was counted, and everything else. -/
theorem fill_agrees_with_byte {args : List Assembly.FillArgument} {values : Nat → Number}
    (hargs : Assembly.FillsHere args values) {s : Session} (hcursor : s.cursor.position.IsBinary64)
    (n : Nat) (t : Session) :
    ((Assembly.fill (.ofNat n) args).exec s = (.ok (), t) ↔
      (Action.times (fun i => do let _ ← Assembly.byte [.number (values i)]) n 0).exec s = (.ok (), t)) ∧
    ((Assembly.fill (.ofNat n) args).exec s = (.ok (), t) ↔
      (Assembly.byte ((List.range n).map (fun i => .number (values i)))).exec s = (.ok n, t)) := by
  have hfill := Assembly.exec_fill_here_eq_ok_iff hargs hcursor n t
  rw [Assembly.times_byte, Assembly.byte_range, Action.exec_answering]
  refine ⟨hfill, hfill.trans ?_⟩
  cases (Action.times (fun i => Assembly.emitByte (values i)) n 0).exec s with
  | mk outcome u => cases outcome <;> simp

/-- The last two cells of memory, filled and emitted: the cursor leaves memory. -/
theorem top_of_memory_is_filled :
    ∃ t, (Assembly.fill 2 [.generator (fun i => some (.ofNat (7 * i + 1)))]).exec
        (Source.plainSession.movedTo 0xFFFE) = (.ok (), t) ∧
      (Assembly.byte [.number 1, .number 8]).exec (Source.plainSession.movedTo 0xFFFE) = (.ok 2, t) ∧
      t.cursor.position = 0x10000 ∧ t.memory.slice 0xFFFE 0xFFFF = [1, 8] := by
  have hfill : ((Assembly.fill 2 [.generator (fun i => some (.ofNat (7 * i + 1)))]).exec
      (Source.plainSession.movedTo 0xFFFE)).1 = .ok () := by decide +kernel
  refine ⟨_, Prod.ext hfill rfl, ?_, by decide +kernel, by decide +kernel⟩
  exact (fill_agrees_with_byte (.generator (fun i => .ofNat (7 * i + 1)))
    (s := Source.plainSession.movedTo 0xFFFE) (Number.isBinary64_ofNat (by decide)) 2 _).2.mp
    (Prod.ext hfill rfl)

end Asm6502
