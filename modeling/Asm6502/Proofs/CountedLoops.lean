import Asm6502.Proofs.Exactness
import Asm6502.Proofs.Steps

/-!
# Counted loops

A count may be any number, and a loop has a round for each of 0, 1, 2, … below it: none for a negative count,
one more for a fraction, and no last one for an infinite count. Nothing checks the count. A loop ends all the
same, since each of its rounds works at a higher address than the one before, and there are 65536 addresses.

* `Action.Course`: how a loop goes that nothing bounds but its count. `Action.Course.exec_times`: what it does
  is what is run.
* `Action.Climbs`: rounds that work at ever higher addresses.
* `Action.Climbs.exists_course`: such a loop ends.
* `Action.Climbs.rounds_le`: its rounds fit into the space above the address where it begins.
* `Repetition`: an operation that prepares a loop and runs it. `Repetition.endsAs_run`: it ends if its rounds
  climb. `Repetition.failsBeyond_run`: it fails if its count exceeds the space.
-/

namespace Asm6502

-- ── Counts ──────────────────────────────────────────────────────────────────

namespace Number

theorem lt_irrefl (x : Number) : ¬x < x := by
  intro h
  cases x with
  | nan => cases h
  | infinite negative => cases negative <;> cases h
  | finite q => exact (of_decide_eq_true h : q < q).false

theorem ofNat_lt_of_le {n m : Nat} (h : n ≤ m) {x : Number} (hm : ofNat m < x) : ofNat n < x := by
  cases x with
  | nan => cases hm
  | infinite negative => exact hm
  | finite q =>
      have hlt : (m : Rat) < q := of_decide_eq_true hm
      have hle : (n : Rat) ≤ m := by exact_mod_cast h
      exact decide_eq_true (lt_of_le_of_lt hle hlt)

/-- The rounds of a loop are those whose index lies below the count. -/
theorem lt_rounds_iff {n : Nat} (hn : n ≤ exactLimit) (x : Number) : n < x.rounds ↔ ofNat n < x := by
  cases x with
  | nan => exact iff_of_false (Nat.not_lt_zero n) (fun h => by cases h)
  | infinite negative =>
      cases negative with
      | true => exact iff_of_false (Nat.not_lt_zero n) (fun h => by cases h)
      | false =>
          have hlimit : exactLimit < (infinite false).rounds := by decide
          exact iff_of_true (Nat.lt_of_le_of_lt hn hlimit) rfl
  | finite q =>
      show n < q.ceil.toNat ↔ decide ((n : Rat) < q) = true
      rw [decide_eq_true_iff, Int.lt_toNat, ← Rat.intCast_natCast]
      exact Rat.lt_ceil_iff

end Number

/-- How many addresses there are from a place on. -/
def Number.room (x : Number) : Nat :=
  match x.toAddress? with
  | some a => 65536 - a.toNat
  | none => 0

namespace Number

theorem room_le (x : Number) : x.room ≤ 65536 := by
  unfold room
  split
  · exact Nat.sub_le ..
  · exact Nat.zero_le _

/-- A place that is no address below `p` has at most the room from `p` on. -/
theorem room_le_of {x : Number} {p : Nat} (h : ∀ a, x.toAddress? = some a → p ≤ a.toNat) :
    x.room ≤ 65536 - p := by
  unfold room
  split
  · exact Nat.sub_le_sub_left (h _ ‹_›) _
  · exact Nat.zero_le _

/-- Higher up there is less room. -/
theorem room_lt_of {x y : Number} {a : UInt16} (hx : x.toAddress? = some a)
    (hy : ∀ b, y.toAddress? = some b → a < b) : y.room < x.room := by
  have hlt := a.toNat_lt
  have hless : y.room ≤ 65536 - (a.toNat + 1) := room_le_of (fun b hb => UInt16.lt_iff_toNat_lt.mp (hy b hb))
  have hroom : x.room = 65536 - a.toNat := by rw [room, hx]
  omega

end Number

-- ── Loops ───────────────────────────────────────────────────────────────────

namespace Action

variable {σ : Type} {count : Number} {step : Nat → Action σ Unit} {i n : Nat} {s t : σ}
  {r : Except Fault Unit}

/-- The course of a loop from an index on: how many rounds it completes, and how it ends. It ends when the
    index reaches the count, or when a round fails. -/
inductive Course (count : Number) (step : Nat → Action σ Unit) :
    (index : Nat) → σ → (rounds : Nat) → Except Fault Unit → σ → Prop
  | reached {i : Nat} {s : σ} (hend : ¬.ofNat i < count) : Course count step i s 0 (.ok ()) s
  | failed {i : Nat} {s t : σ} {fault : Fault} (hmore : .ofNat i < count)
      (hround : (step i).exec s = (.error fault, t)) : Course count step i s 0 (.error fault) t
  | round {i n : Nat} {s t u : σ} {r : Except Fault Unit} (hmore : .ofNat i < count)
      (hround : (step i).exec s = (.ok (), t)) (hrest : Course count step (i + 1) t n r u) :
      Course count step i s (n + 1) r u

namespace Course

/-- A loop has one course at most. -/
theorem unique (h : Course count step i s n r t) {n' : Nat} {r' : Except Fault Unit} {t' : σ}
    (h' : Course count step i s n' r' t') : n' = n ∧ r' = r ∧ t' = t := by
  induction h generalizing n' r' t' with
  | reached hend =>
      cases h' with
      | reached _ => exact ⟨rfl, rfl, rfl⟩
      | failed hmore _ => exact absurd hmore hend
      | round hmore _ _ => exact absurd hmore hend
  | failed hmore hround =>
      cases h' with
      | reached hend => exact absurd hmore hend
      | failed _ hround' =>
          cases hround.symm.trans hround'
          exact ⟨rfl, rfl, rfl⟩
      | round _ hround' _ => cases hround.symm.trans hround'
  | round hmore hround _ ih =>
      cases h' with
      | reached hend => exact absurd hmore hend
      | failed _ hround' => cases hround.symm.trans hround'
      | round _ hround' hrest' =>
          cases hround.symm.trans hround'
          obtain ⟨rfl, rfl, rfl⟩ := ih hrest'
          exact ⟨rfl, rfl, rfl⟩

/-- A loop that completes has reached its count. -/
theorem not_lt (h : Course count step i s n (.ok ()) t) : ¬.ofNat (i + n) < count := by
  generalize hr : (Except.ok () : Except Fault Unit) = r at h
  induction h with
  | reached hend => exact hend
  | failed => cases hr
  | round _ _ _ ih =>
      rw [← Nat.succ_add_eq_add_succ]
      exact ih hr

/-- A loop with a course does what its course says. -/
theorem exec_times (h : Course count step i s n r t) (hn : i + n ≤ Number.exactLimit) :
    (times step (count.rounds - i) i).exec s = (r, t) := by
  -- up to the exact limit a count is above an index exactly if rounds remain
  induction h with
  | @reached i s hend =>
      rw [Nat.sub_eq_zero_of_le (Nat.le_of_not_lt (mt (Number.lt_rounds_iff (by omega) _).mp hend)), times]
      rfl
  | @failed i s t fault hmore hround =>
      have hlt := (Number.lt_rounds_iff (by omega) _).mpr hmore
      rw [← Nat.succ_pred_eq_of_pos (Nat.sub_pos_of_lt hlt), times, exec_bind_of_error hround]
  | @round i n s t u r hmore hround hrest ih =>
      have hlt := (Number.lt_rounds_iff (by omega) _).mpr hmore
      rw [← Nat.succ_pred_eq_of_pos (Nat.sub_pos_of_lt hlt), times, exec_bind_of_ok hround,
        Nat.pred_eq_sub_one, Nat.sub_sub]
      exact ih (by omega)

end Course

/-- Rounds that work at ever higher addresses: `place` is where the round of an index would work, and in the
    states in question a round that succeeds does so at an address, below that of the next one. -/
structure Climbs (I : σ → Prop) (place : Nat → σ → Number) (step : Nat → Action σ Unit) : Prop where
  stays : ∀ i s t, I s → (step i).exec s = (.ok (), t) → I t
  climbs : ∀ i s t, I s → (step i).exec s = (.ok (), t) → ∃ a, (place i s).toAddress? = some a ∧
    ∀ b, (place (i + 1) t).toAddress? = some b → a < b

namespace Climbs

variable {I : σ → Prop} {place : Nat → σ → Number}

/-- A round takes room. -/
theorem room_lt (h : Climbs I place step) (hs : I s) (hround : (step i).exec s = (.ok (), t)) :
    (place (i + 1) t).room < (place i s).room := by
  obtain ⟨a, ha, hnext⟩ := h.climbs i s t hs hround
  exact Number.room_lt_of ha hnext

/-- So a loop of such rounds ends, whatever its count. -/
theorem exists_course (h : Climbs I place step) (count : Number) (i : Nat) (hs : I s) :
    ∃ n r t, Course count step i s n r t := by
  -- by induction on the room for the next round: the count may be infinite
  induction hroom : (place i s).room using Nat.strong_induction_on generalizing i s with
  | _ k ih =>
      by_cases hmore : .ofNat i < count
      · cases hround : (step i).exec s with
        | mk outcome t =>
            cases outcome with
            | error fault => exact ⟨0, _, t, .failed hmore hround⟩
            | ok done =>
                have hless := h.room_lt hs hround
                rw [hroom] at hless
                obtain ⟨n, r, u, hrest⟩ := ih _ hless (i + 1) (h.stays i s t hs hround) rfl
                exact ⟨n + 1, r, u, .round hmore hround hrest⟩
      · exact ⟨0, _, s, .reached hmore⟩

/-- Its rounds fit into the room that there is. -/
theorem rounds_le (h : Climbs I place step) (hs : I s) (hcourse : Course count step i s n r t) :
    n ≤ (place i s).room := by
  induction hcourse with
  | reached _ => exact Nat.zero_le _
  | failed _ _ => exact Nat.zero_le _
  | @round i n s t u r _ hround _ ih =>
      have hless := h.room_lt hs hround
      have hrest := ih (h.stays i s t hs hround)
      omega

/-- A count that the room does not suffice for ends in a fault. -/
theorem fails_beyond (h : Climbs I place step) (hs : I s) (hcourse : Course count step 0 s n r t)
    {space : Nat} (hroom : (place 0 s).room ≤ space) (hcount : .ofNat space < count) :
    ∃ fault, r = .error fault := by
  cases r with
  | error fault => exact ⟨fault, rfl⟩
  | ok done =>
      have hfits : n ≤ space := (h.rounds_le hs hcourse).trans hroom
      have hend := hcourse.not_lt
      rw [Nat.zero_add] at hend
      exact absurd (Number.ofNat_lt_of_le hfits hcount) hend

/-- The loop that is run has a course, and this is what it does. -/
theorem course_of_times (h : Climbs I place step) (count : Number) (hs : I s) :
    ∃ n r t, n ≤ 65536 ∧ Course count step 0 s n r t ∧ (times step count.rounds 0).exec s = (r, t) := by
  obtain ⟨n, r, t, hcourse⟩ := h.exists_course count 0 hs
  have hn : n ≤ 65536 := (h.rounds_le hs hcourse).trans (Number.room_le _)
  exact ⟨n, r, t, hn, hcourse, hcourse.exec_times (by unfold Number.exactLimit; omega)⟩

end Climbs

end Action

-- ── Operations with a count ─────────────────────────────────────────────────

/-- In a session an operation fails if its count exceeds the space from a place on, up to the last address. -/
def Assembly.FailsBeyond (action : Assembly Unit) (s : Session) (place count : Number) : Prop :=
  ∀ p : Nat, place = .ofNat p → .ofNat (65536 - p) < count → ∃ fault t, action.exec s = (.error fault, t)

/-- An operation with a count: a preparation, which may fail; a loop; and what follows its last round. -/
structure Repetition (α : Type) where
  prepare : Assembly α
  count : α → Number
  round : α → Nat → Assembly Unit
  finish : α → Session → Session := fun _ s => s

namespace Repetition

open Asm6502.Action (Climbs)

variable {α : Type} {rep : Repetition α} {s : Session}

/-- Runs all of it. -/
def run (rep : Repetition α) : Assembly Unit := do
  let a ← rep.prepare
  Action.times (rep.round a) (rep.count a).rounds 0
  modify (rep.finish a)

/-- What is left in the end: a loop that completed is followed by the finish. -/
def conclude (rep : Repetition α) (a : α) : Except Fault Unit → Session → Session
  | .ok _, t => rep.finish a t
  | .error _, t => t

/-- The course of a repetition: how many rounds it completes, and how it ends. -/
inductive Course (rep : Repetition α) (s : Session) : (rounds : Nat) → Except Fault Unit → Session → Prop
  | refused {fault : Fault} {t : Session} (hprepare : rep.prepare.exec s = (.error fault, t)) :
      Course rep s 0 (.error fault) t
  | looped {a : α} {u t : Session} {n : Nat} {r : Except Fault Unit}
      (hprepare : rep.prepare.exec s = (.ok a, u))
      (hloop : Action.Course (rep.count a) (rep.round a) 0 u n r t) : Course rep s n r (rep.conclude a r t)

/-- A repetition has one course at most. -/
theorem Course.unique {n n' : Nat} {r r' : Except Fault Unit} {t t' : Session} (h : rep.Course s n r t)
    (h' : rep.Course s n' r' t') : n' = n ∧ r' = r ∧ t' = t := by
  cases h with
  | refused hprepare =>
      cases h' with
      | refused hprepare' =>
          cases hprepare.symm.trans hprepare'
          exact ⟨rfl, rfl, rfl⟩
      | looped hprepare' _ => cases hprepare.symm.trans hprepare'
  | looped hprepare hloop =>
      cases h' with
      | refused hprepare' => cases hprepare.symm.trans hprepare'
      | looped hprepare' hloop' =>
          cases hprepare.symm.trans hprepare'
          obtain ⟨rfl, rfl, rfl⟩ := hloop.unique hloop'
          exact ⟨rfl, rfl, rfl⟩

/-- In a session an operation does what a repetition does, and this has one course, of at most 65536
    rounds. -/
def EndsAs (rep : Repetition α) (action : Assembly Unit) (s : Session) : Prop :=
  ∃ n r t, rep.Course s n r t ∧ (∀ n' r' t', rep.Course s n' r' t' → n' = n ∧ r' = r ∧ t' = t) ∧
    n ≤ 65536 ∧ action.exec s = (r, t)

theorem exec_run {a : α} {u t : Session} {r : Except Fault Unit} (hprepare : rep.prepare.exec s = (.ok a, u))
    (hloop : (Action.times (rep.round a) (rep.count a).rounds 0).exec u = (r, t)) :
    rep.run.exec s = (r, rep.conclude a r t) := by
  rw [run, Action.exec_bind_of_ok hprepare]
  cases r with
  | error fault =>
      rw [Action.exec_bind_of_error hloop]
      rfl
  | ok done =>
      rw [Action.exec_bind_of_ok hloop]
      rfl

/-- A repetition ends if its rounds climb. -/
theorem endsAs_run {place : α → Nat → Session → Number}
    (h : ∀ a, Climbs (fun _ => True) (place a) (rep.round a)) (s : Session) : rep.EndsAs rep.run s := by
  cases hprepare : rep.prepare.exec s with
  | mk outcome u =>
      cases outcome with
      | error fault =>
          have hcourse : rep.Course s 0 (.error fault) u := .refused hprepare
          exact ⟨0, _, u, hcourse, fun _ _ _ => hcourse.unique, Nat.zero_le _,
            Action.exec_bind_of_error hprepare⟩
      | ok a =>
          obtain ⟨n, r, t, hn, hloop, hrun⟩ := (h a).course_of_times (rep.count a) (s := u) trivial
          have hcourse : rep.Course s n r (rep.conclude a r t) := .looped hprepare hloop
          exact ⟨n, r, _, hcourse, fun _ _ _ => hcourse.unique, hn, exec_run hprepare hrun⟩

/-- A repetition fails if its count exceeds the space from some place on, and its rounds begin no lower. -/
theorem failsBeyond_run {x count : Number}
    (h : ∀ a u, rep.prepare.exec s = (.ok a, u) → rep.count a = count ∧ ∃ I place,
      Climbs I place (rep.round a) ∧ I u ∧ ∀ p, x = .ofNat p → (place 0 u).room ≤ 65536 - p) :
    rep.run.FailsBeyond s x count := by
  intro p hp hcount
  cases hprepare : rep.prepare.exec s with
  | mk outcome u =>
      cases outcome with
      | error fault => exact ⟨fault, u, Action.exec_bind_of_error hprepare⟩
      | ok a =>
          obtain ⟨rfl, I, place, hclimbs, hu, hroom⟩ := h a u hprepare
          obtain ⟨n, r, t, -, hcourse, hloop⟩ := hclimbs.course_of_times (rep.count a) hu
          obtain ⟨fault, rfl⟩ := hclimbs.fails_beyond hu hcourse (hroom p hp) hcount
          exact ⟨fault, t, exec_run hprepare hloop⟩

/-- Where nothing follows the last round, a repetition is its loop. -/
theorem run_eq (h : rep.finish = fun _ s => s) : rep.run = (do
    let a ← rep.prepare
    Action.times (rep.round a) (rep.count a).rounds 0) := by
  have hskip : ∀ a, (modify (rep.finish a) : Assembly PUnit) = pure ⟨⟩ := by
    intro a
    rw [h]
    rfl
  simp only [run, hskip, bind_pure_unit]

end Repetition

end Asm6502
