import Mathlib.Data.List.Nodup
import Asm6502.ComponentIds
import Asm6502.Fault
import Asm6502.Proofs.Exactness

/-!
# When ids tell components apart

An id is a name with a count behind it, and nothing marks where the name ends. So the ids of different
names can clash: the eleventh `Screen` and the first `Screen1` are both `Screen10`. Such a clash takes a
name `N` and a name `Nk`, where `k` is a positive number in decimal. An id of `Nk` is `N` with digits that
go on after `k`, so it counts at least `10 * k` components of the name `N`, and the first component of the
name `Nk` has exactly that id. Ids are therefore distinct as long as no such `N` has more than `10 * k`
components, and no name has more components than numbers can count.

* `numbered`: names with how often they came before; ids are read off it.
* `toDigits_eq_append`: what a beginning of the digits of a number is.
* `componentIds_nodup_iff`: when ids are distinct.
-/

namespace Asm6502

-- ── Counting with numbers ───────────────────────────────────────────────────

namespace Number

/-- How far a count of ones gets: sums are rounded back from `2^53` on. -/
def counted (n : Nat) : Number := ofNat (min n exactLimit)

theorem counted_of_le {n : Nat} (h : n ≤ exactLimit) : counted n = ofNat n := by
  rw [counted, Nat.min_eq_left h]

theorem counted_succ (n : Nat) : counted n + 1 = counted (n + 1) := by
  by_cases hn : n < exactLimit
  · rw [counted_of_le (Nat.le_of_lt hn), counted_of_le hn]
    exact ofNat_add hn
  · have hstuck : ofNat exactLimit + 1 = ofNat exactLimit := by decide +kernel
    rw [counted, counted, Nat.min_eq_right (by omega), Nat.min_eq_right (by omega), hstuck]

end Number

theorem natText_of_le {n : Nat} (h : n ≤ Number.exactLimit) :
    natText n = String.ofList (Nat.toDigits 10 n) := Number.text_ofNat h

-- ── Digits ──────────────────────────────────────────────────────────────────

theorem toDigits_injective {m n : Nat} (h : Nat.toDigits 10 m = Nat.toDigits 10 n) : m = n := by
  have hread := congrArg (fun digits => Nat.ofDigitChars 10 digits 0) h
  simpa only [Nat.ofDigitChars_ten_toDigits] using hread

/-- A zero behind the digits of a positive number makes it ten times as large. -/
theorem toDigits_ten_mul {k : Nat} (h : 0 < k) :
    Nat.toDigits 10 (10 * k) = Nat.toDigits 10 k ++ Nat.toDigits 10 0 := by
  rw [Nat.toDigits_eq_if (by decide), if_neg (by omega), Nat.mul_div_cancel_left k (by decide),
    Nat.mul_mod_right]
  rfl

/-- A beginning of the digits of a number is a positive number itself, at most a tenth of it. -/
theorem toDigits_eq_append {n : Nat} {first second : List Char}
    (h : Nat.toDigits 10 n = first ++ second) (hfirst : first ≠ []) (hsecond : second ≠ []) :
    ∃ k, 0 < k ∧ first = Nat.toDigits 10 k ∧ 10 * k ≤ n := by
  induction n using Nat.strongRecOn generalizing second with
  | ind n ih =>
      obtain ⟨second, last, rfl⟩ := (List.eq_nil_or_concat' second).resolve_left hsecond
      rw [Nat.toDigits_eq_if (by decide), ← List.append_assoc] at h
      by_cases hsmall : n < 10
      · -- one digit has no beginning
        rw [if_pos hsmall] at h
        have hlength := congrArg List.length h
        have := List.length_pos_of_ne_nil hfirst
        simp only [List.length_append, List.length_singleton] at hlength
        omega
      · rw [if_neg hsmall] at h
        have hinit := (List.append_inj' h rfl).1
        by_cases hnil : second = []
        · rw [hnil, List.append_nil] at hinit
          exact ⟨n / 10, by omega, hinit.symm, by omega⟩
        · obtain ⟨k, hk, hdigits, hle⟩ := ih (n / 10) (by omega) hinit hnil
          exact ⟨k, hk, hdigits, by omega⟩

-- ── Names with their numbers ────────────────────────────────────────────────

/-- Names, each with how often it came before, where some have come already. -/
def numbered (before : String → Nat) : List String → List (String × Nat)
  | [] => []
  | name :: rest =>
    (name, before name) :: numbered (fun other => before other + if name = other then 1 else 0) rest

theorem mem_numbered {before : String → Nat} {names : List String} {name : String} {n : Nat} :
    (name, n) ∈ numbered before names ↔ before name ≤ n ∧ n < before name + names.count name := by
  induction names generalizing before with
  | nil =>
      simp only [numbered, List.count_nil]
      constructor
      · exact fun h => nomatch h
      · omega
  | cons first rest ih =>
      simp only [numbered, List.mem_cons, ih, List.count_cons, Prod.mk.injEq, beq_iff_eq]
      by_cases hname : first = name
      · subst hname
        simp only [true_and, if_true]
        omega
      · simp only [if_neg hname, Ne.symm hname, false_and, false_or]
        omega

theorem nodup_numbered (before : String → Nat) (names : List String) :
    (numbered before names).Nodup := by
  induction names generalizing before with
  | nil => exact List.nodup_nil
  | cons name rest ih =>
      refine List.nodup_cons.mpr ⟨fun hmem => ?_, ih _⟩
      have hlater := (mem_numbered.mp hmem).1
      rw [if_pos rfl] at hlater
      omega

/-- The id of a component, from its name and how many of the name came before it. -/
def numberedId (component : String × Nat) : String :=
  component.1 ++ (Number.counted component.2).text

theorem assign_eq {counts : ComponentCounts} {before : String → Nat}
    (h : ∀ name, counts.count name = .counted (before name)) (names : List String) :
    counts.assign names = (numbered before names).map numberedId := by
  induction names generalizing counts before with
  | nil => rfl
  | cons name rest ih =>
      have hbump : ∀ other, (counts.bump name).count other =
          .counted (before other + if name = other then 1 else 0) := by
        intro other
        unfold ComponentCounts.bump ComponentCounts.count
        rw [Table.find?_insert]
        by_cases hother : name = other
        · subst hother
          rw [if_pos rfl, if_pos rfl, Option.getD_some, ← Number.counted_succ]
          exact congrArg (· + 1) (h name)
        · rw [if_neg hother, if_neg hother]
          exact h other
      rw [ComponentCounts.assign, numbered, List.map_cons, ih hbump, ComponentCounts.nextId, h]
      rfl

theorem componentIds_eq (names : List String) :
    componentIds names = (numbered (fun _ => 0) names).map numberedId :=
  assign_eq (fun _ => rfl) names

theorem mem_numbered_zero {names : List String} {name : String} {n : Nat} :
    (name, n) ∈ numbered (fun _ => 0) names ↔ n < names.count name := by
  rw [mem_numbered]
  omega

/-- Ids are distinct if each belongs to one name and one number. -/
theorem componentIds_nodup_iff_injOn (names : List String) :
    (componentIds names).Nodup ↔
      ∀ name m other n, m < names.count name → n < names.count other →
        numberedId (name, m) = numberedId (other, n) → name = other ∧ m = n := by
  rw [componentIds_eq, List.nodup_map_iff_inj_on (nodup_numbered _ names)]
  constructor
  · intro h name m other n hm hn hid
    exact Prod.mk.inj (h _ (mem_numbered_zero.mpr hm) _ (mem_numbered_zero.mpr hn) hid)
  · rintro h ⟨name, m⟩ hm ⟨other, n⟩ hn hid
    obtain ⟨hname, hnumber⟩ :=
      h name m other n (mem_numbered_zero.mp hm) (mem_numbered_zero.mp hn) hid
    rw [hname, hnumber]

-- ── Clashes ─────────────────────────────────────────────────────────────────

theorem toList_numberedId {name : String} {n : Nat} (h : n ≤ Number.exactLimit) :
    (numberedId (name, n)).toList = name.toList ++ Nat.toDigits 10 n := by
  show (name ++ (Number.counted n).text).toList = _
  rw [Number.counted_of_le h, show (Number.ofNat n).text = natText n from rfl, natText_of_le h,
    String.toList_append, String.toList_ofList]

/-- A clash of two names: the longer one is the shorter one with a number behind it, and the id counts at
    least ten times that number of the shorter one. -/
theorem clash_of_append {name other : String} {m n : Nat} {digits : List Char}
    (hm : m ≤ Number.exactLimit) (hother : other.toList = name.toList ++ digits)
    (hdigits : Nat.toDigits 10 m = digits ++ Nat.toDigits 10 n) :
    name = other ∧ m = n ∨ ∃ k, 0 < k ∧ other = name ++ natText k ∧ 10 * k ≤ m := by
  by_cases hnil : digits = []
  · rw [hnil, List.append_nil] at hother
    rw [hnil, List.nil_append] at hdigits
    exact Or.inl ⟨String.toList_inj.mp hother.symm, toDigits_injective hdigits⟩
  · obtain ⟨k, hk, rfl, hle⟩ := toDigits_eq_append hdigits hnil Nat.toDigits_ne_nil
    refine Or.inr ⟨k, hk, String.toList_inj.mp ?_, hle⟩
    rw [hother, natText_of_le (by omega), String.toList_append, String.toList_ofList]

/-- The first component of a name with a number behind it has an id of the name alone. -/
theorem numberedId_ten_mul {name : String} {k : Nat} (hk : 0 < k) (hle : 10 * k ≤ Number.exactLimit) :
    numberedId (name, 10 * k) = numberedId (name ++ natText k, 0) := by
  rw [← String.toList_inj, toList_numberedId hle, toList_numberedId (Nat.zero_le _),
    toDigits_ten_mul hk, String.toList_append, natText_of_le (by omega), String.toList_ofList,
    List.append_assoc]

/-- The ids of components are distinct exactly if no name has more components than numbers can count, and
    no name has more than `10 * k` components while there is a component of that name with the positive
    number `k` behind it. -/
theorem componentIds_nodup_iff (names : List String) :
    (componentIds names).Nodup ↔
      (∀ name, names.count name ≤ Number.exactLimit + 1) ∧
      ∀ name k, 0 < k → name ++ natText k ∈ names → names.count name ≤ 10 * k := by
  rw [componentIds_nodup_iff_injOn]
  constructor
  · intro hdistinct
    have hcounted : ∀ name, names.count name ≤ Number.exactLimit + 1 := by
      intro name
      by_contra hmany
      have hsame : numberedId (name, Number.exactLimit) = numberedId (name, Number.exactLimit + 1) := by
        simp only [numberedId, Number.counted, Nat.min_self, Nat.min_eq_right (Nat.le_succ _)]
      have := (hdistinct _ _ _ _ (by omega) (by omega) hsame).2
      omega
    refine ⟨hcounted, fun name k hk hmem => ?_⟩
    by_contra hmany
    have hle := hcounted name
    have hfirst : 0 < names.count (name ++ natText k) := List.count_pos_iff.mpr hmem
    have hsame : numberedId (name, 10 * k) = numberedId (name ++ natText k, 0) :=
      numberedId_ten_mul hk (by omega)
    have := (hdistinct _ _ _ _ (by omega) hfirst hsame).2
    omega
  · rintro ⟨hcounted, hfew⟩ name m other n hm hn hid
    have hle : m ≤ Number.exactLimit := by have := hcounted name; omega
    have hle' : n ≤ Number.exactLimit := by have := hcounted other; omega
    have hlists := congrArg String.toList hid
    rw [toList_numberedId hle, toList_numberedId hle'] at hlists
    rcases List.append_eq_append_iff.mp hlists with ⟨digits, hother, hdigits⟩ | ⟨digits, hname, hdigits⟩
    · rcases clash_of_append hle hother hdigits with hsame | ⟨k, hk, rfl, htimes⟩
      · exact hsame
      · have := hfew name k hk (List.count_pos_iff.mp (by omega))
        omega
    · rcases clash_of_append hle' hname hdigits with ⟨hsame, heq⟩ | ⟨k, hk, rfl, htimes⟩
      · exact ⟨hsame.symm, heq.symm⟩
      · have := hfew other k hk (List.count_pos_iff.mp (by omega))
        omega

/-- Eleven components of one name, and one of that name with a digit behind it. -/
def clashingNames : List String := List.replicate 11 "Screen" ++ ["Screen1"]

theorem ids_of_different_names_clash :
    (componentIds clashingNames)[10]? = some "Screen10" ∧
    (componentIds clashingNames)[11]? = some "Screen10" ∧ ¬(componentIds clashingNames).Nodup := by
  decide +kernel

end Asm6502
