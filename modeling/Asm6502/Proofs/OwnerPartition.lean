import Asm6502.Memory.OwnerRuns
import Asm6502.Proofs.Layout

/-!
# Owner runs partition the image

A written cell belongs to the owner who wrote it. The runs of an image are the one way to cut its written
cells into stretches of neighbours with one owner, none of which can be made longer. They are found from
the last cell to the first: a cell is put in front of the runs of the cells above it.

* `OwnerRun.Partition`: runs in order that hold exactly the owned cells, and are as long as possible.
* `OwnerRun.Partition.cover`, `OwnerRun.partition_foldr`: what one cell in front keeps, and so all of them.
* `OwnerRun.Partition.unique`: there is no other partition.
* `owner_runs_partition_image`: the runs of an image, and the range from the first to the last.
-/

namespace Asm6502

-- ── Partitions ──────────────────────────────────────────────────────────────

namespace OwnerRun

/-- Whether an address lies in a run. -/
def Holds (run : OwnerRun) (a : UInt16) : Prop := run.first ≤ a ∧ a ≤ run.last

/-- Runs that partition the addresses which have an owner. -/
structure Partition (owns : UInt16 → String → Prop) (runs : List OwnerRun) : Prop where
  /-- A run has a first and a last address. -/
  nonempty : ∀ run ∈ runs, run.first ≤ run.last
  /-- A run ends before any later one begins. -/
  ordered : runs.Pairwise (fun run later => run.last < later.first)
  /-- Exactly the owned addresses lie in runs, each in a run of its owner. -/
  owned : ∀ a owner, owns a owner ↔ ∃ run ∈ runs, run.Holds a ∧ run.owner = owner
  /-- Runs that touch have different owners. -/
  maximal : ∀ run ∈ runs, ∀ later ∈ runs, later.first.toNat = run.last.toNat + 1 →
    later.owner ≠ run.owner

namespace Partition

variable {owns : UInt16 → String → Prop} {run : OwnerRun} {rest : List OwnerRun}

theorem nil (h : ∀ a owner, ¬owns a owner) : Partition owns [] where
  nonempty _ hrun := absurd hrun List.not_mem_nil
  ordered := .nil
  owned a owner := by simp [h a owner]
  maximal _ hrun := absurd hrun List.not_mem_nil

/-- A run in front of a partition of the addresses above it. -/
theorem cons (h : Partition (fun a owner => owns a owner ∧ run.last < a) rest)
    (hrun : run.first ≤ run.last) (hlow : ∀ a owner, owns a owner → run.first ≤ a)
    (howner : ∀ a owner, run.Holds a → (owns a owner ↔ run.owner = owner))
    (htouch : ∀ later ∈ rest, later.first.toNat = run.last.toNat + 1 → later.owner ≠ run.owner) :
    Partition owns (run :: rest) := by
  have habove : ∀ later ∈ rest, run.last < later.first := by
    intro later hlater
    exact ((h.owned later.first later.owner).mpr
      ⟨later, hlater, ⟨UInt16.le_refl _, h.nonempty later hlater⟩, rfl⟩).2
  constructor
  · exact List.forall_mem_cons.mpr ⟨hrun, h.nonempty⟩
  · exact .cons habove h.ordered
  · intro a owner
    constructor
    · intro howns
      by_cases hlast : a ≤ run.last
      · have hholds : run.Holds a := ⟨hlow a owner howns, hlast⟩
        exact ⟨run, List.mem_cons_self .., hholds, (howner a owner hholds).mp howns⟩
      · obtain ⟨later, hlater, hholds⟩ := (h.owned a owner).mp ⟨howns, UInt16.not_le.mp hlast⟩
        exact ⟨later, List.mem_cons_of_mem run hlater, hholds⟩
    · rintro ⟨holder, hmem, hholds, heq⟩
      rcases List.mem_cons.mp hmem with rfl | hmem
      · exact (howner a owner hholds).mpr heq
      · exact ((h.owned a owner).mpr ⟨holder, hmem, hholds, heq⟩).1
  · have hrun' : run.first.toNat ≤ run.last.toNat := hrun
    intro lower hlower upper hupper hnext
    rcases List.mem_cons.mp hlower with rfl | hlower
    · rcases List.mem_cons.mp hupper with rfl | hupper
      · omega
      · exact htouch upper hupper hnext
    · rcases List.mem_cons.mp hupper with heq | hupper
      · have hbefore : run.last.toNat < lower.first.toNat := habove lower hlower
        have hle : lower.first.toNat ≤ lower.last.toNat := h.nonempty lower hlower
        rw [heq] at hnext
        omega
      · exact h.maximal lower hlower upper hupper hnext

/-- The first address of the first run comes before every owned one. -/
theorem first_le (h : Partition owns (run :: rest)) {a : UInt16} {owner : String} (ha : owns a owner) :
    run.first ≤ a := by
  obtain ⟨holder, hmem, hholds, -⟩ := (h.owned a owner).mp ha
  rcases List.mem_cons.mp hmem with rfl | hmem
  · exact hholds.1
  · have hle : run.first.toNat ≤ run.last.toNat := h.nonempty run (List.mem_cons_self ..)
    have hbefore : run.last.toNat < holder.first.toNat := (List.pairwise_cons.mp h.ordered).1 holder hmem
    have hfrom : holder.first.toNat ≤ a.toNat := hholds.1
    show run.first.toNat ≤ a.toNat
    omega

/-- The addresses of the first run belong to its owner alone. -/
theorem owner_iff (h : Partition owns (run :: rest)) {a : UInt16} (ha : run.Holds a) (owner : String) :
    owns a owner ↔ run.owner = owner := by
  rw [h.owned]
  constructor
  · rintro ⟨holder, hmem, hholds, heq⟩
    rcases List.mem_cons.mp hmem with rfl | hmem
    · exact heq
    · have hbefore : run.last.toNat < holder.first.toNat := (List.pairwise_cons.mp h.ordered).1 holder hmem
      have hfrom : holder.first.toNat ≤ a.toNat := hholds.1
      have hto : a.toNat ≤ run.last.toNat := ha.2
      omega
  · intro heq
    exact ⟨run, List.mem_cons_self .., ha, heq⟩

theorem owns_first (h : Partition owns (run :: rest)) : owns run.first run.owner :=
  (h.owner_iff ⟨UInt16.le_refl _, h.nonempty run (List.mem_cons_self ..)⟩ run.owner).mpr rfl

/-- Behind the first run, the others partition what lies above it. -/
theorem tail (h : Partition owns (run :: rest)) :
    Partition (fun a owner => owns a owner ∧ run.last < a) rest := by
  obtain ⟨hbefore, hordered⟩ := List.pairwise_cons.mp h.ordered
  constructor
  · exact fun later hlater => h.nonempty later (List.mem_cons_of_mem run hlater)
  · exact hordered
  · intro a owner
    rw [h.owned]
    constructor
    · rintro ⟨⟨holder, hmem, hholds, heq⟩, habove⟩
      rcases List.mem_cons.mp hmem with rfl | hmem
      · exact absurd hholds.2 (UInt16.not_le.mpr habove)
      · exact ⟨holder, hmem, hholds, heq⟩
    · rintro ⟨later, hlater, hholds, heq⟩
      exact ⟨⟨later, List.mem_cons_of_mem run hlater, hholds, heq⟩,
        UInt16.lt_of_lt_of_le (hbefore later hlater) hholds.1⟩
  · intro first hfirst later hlater
    exact h.maximal first (List.mem_cons_of_mem run hfirst) later (List.mem_cons_of_mem run hlater)

/-- The last address of the last run comes behind every owned one. -/
theorem le_last {front : List OwnerRun} (h : Partition owns (front ++ [run])) {a : UInt16}
    {owner : String} (ha : owns a owner) : a ≤ run.last := by
  obtain ⟨holder, hmem, hholds, -⟩ := (h.owned a owner).mp ha
  rcases List.mem_append.mp hmem with hmem | hmem
  · have hto : a.toNat ≤ holder.last.toNat := hholds.2
    have hbefore : holder.last.toNat < run.first.toNat :=
      (List.pairwise_append.mp h.ordered).2.2 holder hmem run (List.mem_singleton_self run)
    have hle : run.first.toNat ≤ run.last.toNat :=
      h.nonempty run (List.mem_append_right front (List.mem_singleton_self run))
    show a.toNat ≤ run.last.toNat
    omega
  · rw [List.mem_singleton.mp hmem] at hholds
    exact hholds.2

theorem owns_last {runs : List OwnerRun} (h : Partition owns runs) (hrun : run ∈ runs) :
    owns run.last run.owner :=
  (h.owned run.last run.owner).mpr ⟨run, hrun, ⟨h.nonempty run hrun, UInt16.le_refl _⟩, rfl⟩

-- ── One cell after another ──────────────────────────────────────────────────

/-- A cell in front of the runs of the cells above it: it makes the first run longer if that one begins
    right above and has the same owner, and otherwise is a run of its own. -/
theorem cover {runs : List OwnerRun} (h : Partition owns runs) {a : UInt16} (cell : Cell)
    (habove : ∀ b owner, owns b owner → a < b) :
    Partition (fun b owner => b = a ∧ cell.owner = owner ∨ owns b owner) (OwnerRun.cover a cell runs) := by
  -- what lies above the new cell alone is what the runs partition
  have hsame : Partition (fun b owner => (b = a ∧ cell.owner = owner ∨ owns b owner) ∧ a < b) runs := by
    refine ⟨h.nonempty, h.ordered, fun b owner => ?_, h.maximal⟩
    rw [← h.owned]
    constructor
    · rintro ⟨⟨rfl, -⟩ | howns, hlt⟩
      · exact absurd hlt (UInt16.lt_irrefl _)
      · exact howns
    · exact fun howns => ⟨Or.inr howns, habove b owner howns⟩
  have hlow : ∀ b owner, (b = a ∧ cell.owner = owner ∨ owns b owner) → a ≤ b := by
    rintro b owner (⟨rfl, -⟩ | howns)
    · exact UInt16.le_refl _
    · exact UInt16.le_of_lt (habove b owner howns)
  have hnew : ∀ owner, (a = a ∧ cell.owner = owner ∨ owns a owner) ↔ cell.owner = owner := by
    intro owner
    constructor
    · rintro (⟨-, heq⟩ | howns)
      · exact heq
      · exact absurd (habove a owner howns) (UInt16.lt_irrefl a)
    · exact fun heq => Or.inl ⟨rfl, heq⟩
  have hsingle : ∀ b owner, (⟨cell.owner, a, a⟩ : OwnerRun).Holds b →
      ((b = a ∧ cell.owner = owner ∨ owns b owner) ↔ cell.owner = owner) := by
    rintro b owner ⟨hfrom, hto⟩
    obtain rfl := UInt16.le_antisymm hto hfrom
    exact hnew owner
  cases runs with
  | nil => exact cons hsame (UInt16.le_refl a) hlow hsingle (fun _ hlater => absurd hlater List.not_mem_nil)
  | cons run rest =>
      rw [OwnerRun.cover]
      split
      · rename_i hjoined
        obtain ⟨howner, hnext⟩ := hjoined
        have hrun : run.first.toNat ≤ run.last.toNat := h.nonempty run (List.mem_cons_self ..)
        refine cons ?_ ?_ hlow ?_ ?_
        · have htail := h.tail
          refine ⟨htail.nonempty, htail.ordered, fun b owner => ?_, htail.maximal⟩
          rw [← htail.owned]
          constructor
          · rintro ⟨⟨rfl, -⟩ | howns, hlt⟩
            · have hlt' : run.last.toNat < b.toNat := hlt
              omega
            · exact ⟨howns, hlt⟩
          · exact fun hlater => ⟨Or.inr hlater.1, hlater.2⟩
        · show a.toNat ≤ run.last.toNat
          omega
        · rintro b owner ⟨hfrom, hto⟩
          by_cases hb : b = a
          · rw [hb]
            exact hnew owner
          · have hne : b.toNat ≠ a.toNat := fun heq => hb (UInt16.toNat_inj.mp heq)
            have hfrom' : a.toNat ≤ b.toNat := hfrom
            have hholds : run.Holds b := by
              refine ⟨?_, hto⟩
              show run.first.toNat ≤ b.toNat
              omega
            rw [← howner, ← h.owner_iff hholds]
            exact ⟨fun howns => howns.resolve_left (fun hno => hb hno.1), Or.inr⟩
        · intro later hlater htouch
          show later.owner ≠ cell.owner
          rw [← howner]
          exact h.maximal run (List.mem_cons_self ..) later (List.mem_cons_of_mem run hlater) htouch
      · rename_i happart
        refine cons hsame (UInt16.le_refl a) hlow hsingle ?_
        intro later hlater htouch heq
        rcases List.mem_cons.mp hlater with rfl | hlater
        · exact happart ⟨heq, htouch⟩
        · -- a later run begins above the first one, which begins above the cell
          have hcell : a.toNat < run.first.toNat := habove run.first run.owner h.owns_first
          have hrun : run.first.toNat ≤ run.last.toNat := h.nonempty run (List.mem_cons_self ..)
          have hbefore : run.last.toNat < later.first.toNat :=
            (List.pairwise_cons.mp h.ordered).1 later hlater
          have htouch' : later.first.toNat = a.toNat + 1 := htouch
          omega

end Partition

/-- Cells in the order of their addresses are covered by a partition. -/
theorem partition_foldr {cells : List (UInt16 × Cell)} (h : cells.Pairwise (fun c d => c.1 < d.1)) :
    Partition (fun a owner => ∃ cell, (a, cell) ∈ cells ∧ cell.owner = owner)
      (cells.foldr (fun (a, cell) runs => OwnerRun.cover a cell runs) []) := by
  induction cells with
  | nil => exact .nil (fun a owner => by simp)
  | cons entry rest ih =>
      obtain ⟨a, cell⟩ := entry
      obtain ⟨hbefore, hrest⟩ := List.pairwise_cons.mp h
      have hcover := (ih hrest).cover (a := a) cell (by
        rintro b owner ⟨cell', hmem, -⟩
        exact hbefore (b, cell') hmem)
      refine ⟨hcover.nonempty, hcover.ordered, fun b owner => ?_, hcover.maximal⟩
      rw [List.foldr_cons, ← hcover.owned]
      constructor
      · rintro ⟨cell', hmem, heq⟩
        rcases List.mem_cons.mp hmem with hsame | hmem
        · obtain ⟨rfl, rfl⟩ := Prod.mk.inj hsame
          exact Or.inl ⟨rfl, heq⟩
        · exact Or.inr ⟨cell', hmem, heq⟩
      · rintro (⟨rfl, heq⟩ | ⟨cell', hmem, heq⟩)
        · exact ⟨cell, List.mem_cons_self .., heq⟩
        · exact ⟨cell', List.mem_cons_of_mem _ hmem, heq⟩

-- ── No other partition ──────────────────────────────────────────────────────

namespace Partition

variable {owns : UInt16 → String → Prop} {run run' : OwnerRun} {rest rest' : List OwnerRun}

/-- Of two partitions, the first run of one goes at least as far as that of the other: right behind it an
    address would belong to the same owner, but to another run. -/
theorem last_le (h : Partition owns (run :: rest)) (h' : Partition owns (run' :: rest'))
    (hfirst : run.first = run'.first) (howner : run.owner = run'.owner) : run'.last ≤ run.last := by
  refine UInt16.not_lt.mp (fun hlonger => ?_)
  have hlonger' : run.last.toNat < run'.last.toNat := hlonger
  have hbound := run'.last.toNat_lt
  have hrun : run.first.toNat ≤ run.last.toNat := h.nonempty run (List.mem_cons_self ..)
  have hnext : (UInt16.ofNat (run.last.toNat + 1)).toNat = run.last.toNat + 1 := by
    rw [UInt16.toNat_ofNat', Nat.mod_eq_of_lt (by omega)]
  generalize UInt16.ofNat (run.last.toNat + 1) = next at hnext
  have hholds' : run'.Holds next := by
    rw [hfirst] at hrun
    constructor
    · show run'.first.toNat ≤ next.toNat
      omega
    · show next.toNat ≤ run'.last.toNat
      omega
  obtain ⟨holder, hmem, hholds, heq⟩ :=
    (h.owned next run.owner).mp ((h'.owner_iff hholds' run.owner).mpr howner.symm)
  have hto : next.toNat ≤ holder.last.toNat := hholds.2
  rcases List.mem_cons.mp hmem with rfl | hmem
  · omega
  · have hbefore : run.last.toNat < holder.first.toNat := (List.pairwise_cons.mp h.ordered).1 holder hmem
    have hfrom : holder.first.toNat ≤ next.toNat := hholds.1
    refine h.maximal run (List.mem_cons_self ..) holder (List.mem_cons_of_mem run hmem) ?_ heq
    omega

/-- There is only one partition. -/
theorem unique {runs runs' : List OwnerRun} (h : Partition owns runs) (h' : Partition owns runs') :
    runs = runs' := by
  have hempty : ∀ {owns : UInt16 → String → Prop} {run : OwnerRun} {rest : List OwnerRun},
      Partition owns [] → Partition owns (run :: rest) → False := by
    intro owns run rest hnone hsome
    obtain ⟨holder, hmem, -⟩ := (hnone.owned _ _).mp hsome.owns_first
    exact List.not_mem_nil hmem
  induction runs generalizing owns runs' with
  | nil =>
      cases runs' with
      | nil => rfl
      | cons run' rest' => exact (hempty h h').elim
  | cons run rest ih =>
      cases runs' with
      | nil => exact (hempty h' h).elim
      | cons run' rest' =>
          have hfirst : run.first = run'.first :=
            UInt16.le_antisymm (h.first_le h'.owns_first) (h'.first_le h.owns_first)
          have howner : run.owner = run'.owner := by
            have howns := h.owns_first
            rw [hfirst, h'.owner_iff ⟨UInt16.le_refl _, h'.nonempty run' (List.mem_cons_self ..)⟩] at howns
            exact howns.symm
          have hlast : run.last = run'.last :=
            UInt16.le_antisymm (h'.last_le h hfirst.symm howner.symm) (h.last_le h' hfirst howner)
          have hrun : run = run' := by
            cases run
            cases run'
            simp_all
          rw [hrun] at h ⊢
          rw [ih h.tail h'.tail]

end Partition

end OwnerRun

-- ── Images ──────────────────────────────────────────────────────────────────

namespace Image

/-- The cell at an address is written and belongs to an owner. -/
def Owns (m : Image) (a : UInt16) (owner : String) : Prop :=
  ∃ cell, m.cell? a = some cell ∧ cell.owner = owner

theorem partition_ownerRuns (m : Image) : OwnerRun.Partition m.Owns m.ownerRuns := by
  have hordered : m.cells.toList.Pairwise (fun c d => c.1 < d.1) := by
    refine Std.ExtTreeMap.ordered_keys_toList.imp ?_
    intro c d hlt
    exact Std.compare_eq_lt.mp hlt
  have hpartition := OwnerRun.partition_foldr hordered
  have howns : m.Owns = fun a owner => ∃ cell, (a, cell) ∈ m.cells.toList ∧ cell.owner = owner := by
    funext a owner
    simp only [Owns, cell?, Std.ExtTreeMap.mem_toList_iff_getElem?_eq_some]
  rw [howns]
  exact hpartition

theorem owns_iff_mem (m : Image) (a : UInt16) : (∃ owner, m.Owns a owner) ↔ a ∈ m.cells := by
  rw [Std.ExtTreeMap.mem_iff_isSome_getElem?, Option.isSome_iff_exists]
  constructor
  · rintro ⟨owner, cell, hcell, -⟩
    exact ⟨cell, hcell⟩
  · rintro ⟨cell, hcell⟩
    exact ⟨cell.owner, cell, hcell, rfl⟩

/-- The written range goes from the lowest to the highest address that has an owner. -/
theorem writtenRange_of_bounds {m : Image} {first last : UInt16} {owner owner' : String}
    (hfirst : m.Owns first owner) (hlast : m.Owns last owner')
    (hbounds : ∀ a owner, m.Owns a owner → first ≤ a ∧ a ≤ last) :
    m.writtenRange = some (first, last) := by
  have hmin : m.cells.minKey? = some first := by
    rw [Std.ExtTreeMap.minKey?_eq_some_iff_mem_and_forall]
    refine ⟨(m.owns_iff_mem first).mp ⟨owner, hfirst⟩, fun a ha => ?_⟩
    obtain ⟨holder, hholder⟩ := (m.owns_iff_mem a).mpr ha
    exact Std.isLE_compare.mpr (hbounds a holder hholder).1
  have hmax : m.cells.maxKey? = some last := by
    rw [Std.ExtTreeMap.maxKey?_eq_some_iff_mem_and_forall]
    refine ⟨(m.owns_iff_mem last).mp ⟨owner', hlast⟩, fun a ha => ?_⟩
    obtain ⟨holder, hholder⟩ := (m.owns_iff_mem a).mpr ha
    exact Std.isLE_compare.mpr (hbounds a holder hholder).2
  rw [writtenRange, hmin, hmax]

/-- Without runs nothing is written. -/
theorem writtenRange_of_no_runs {m : Image} (h : m.ownerRuns = []) : m.writtenRange = none := by
  have hpartition := m.partition_ownerRuns
  rw [h] at hpartition
  refine writtenRange_of_none (fun a => ?_)
  cases hcell : m.cell? a with
  | none => rfl
  | some cell =>
      obtain ⟨run, hrun, -⟩ := (hpartition.owned a cell.owner).mp ⟨cell, hcell, rfl⟩
      exact absurd hrun List.not_mem_nil

/-- With runs, the written range goes from the first one to the last. -/
theorem writtenRange_of_runs {m : Image} {lowest highest : OwnerRun}
    (hlowest : m.ownerRuns.head? = some lowest) (hhighest : m.ownerRuns.getLast? = some highest) :
    m.writtenRange = some (lowest.first, highest.last) := by
  have hpartition := m.partition_ownerRuns
  obtain ⟨rest, hrest⟩ := List.head?_eq_some_iff.mp hlowest
  obtain ⟨front, hfront⟩ := List.getLast?_eq_some_iff.mp hhighest
  have hmem : highest ∈ m.ownerRuns := List.mem_of_getLast? hhighest
  refine writtenRange_of_bounds (hrest ▸ hpartition).owns_first (hpartition.owns_last hmem) ?_
  intro a owner ha
  exact ⟨(hrest ▸ hpartition).first_le ha, (hfront ▸ hpartition).le_last ha⟩

end Image

/-- The runs of an image are the one partition of its written cells: in order and disjoint, each of one
    owner and as long as possible. There are none exactly if nothing is written; else the written range
    goes from the first run to the last. -/
theorem owner_runs_partition_image (m : Image) :
    OwnerRun.Partition m.Owns m.ownerRuns ∧
    (∀ runs, OwnerRun.Partition m.Owns runs → runs = m.ownerRuns) ∧
    (m.writtenRange = none ↔ m.ownerRuns = []) ∧
    ∀ first last, m.writtenRange = some (first, last) ↔
      ∃ lowest highest, m.ownerRuns.head? = some lowest ∧ m.ownerRuns.getLast? = some highest ∧
        lowest.first = first ∧ highest.last = last := by
  have hranges : m.ownerRuns ≠ [] → ∃ lowest highest, m.ownerRuns.head? = some lowest ∧
      m.ownerRuns.getLast? = some highest ∧ m.writtenRange = some (lowest.first, highest.last) := by
    intro hsome
    have hlowest := List.head?_eq_some_head hsome
    have hhighest := List.getLast?_eq_some_getLast hsome
    exact ⟨_, _, hlowest, hhighest, Image.writtenRange_of_runs hlowest hhighest⟩
  refine ⟨m.partition_ownerRuns, fun runs hruns => hruns.unique m.partition_ownerRuns, ?_, ?_⟩
  · constructor
    · intro hnone
      by_contra hsome
      obtain ⟨lowest, highest, -, -, hrange⟩ := hranges hsome
      rw [hrange] at hnone
      cases hnone
    · exact Image.writtenRange_of_no_runs
  · intro first last
    constructor
    · intro hrange
      have hsome : m.ownerRuns ≠ [] := by
        intro hnil
        rw [Image.writtenRange_of_no_runs hnil] at hrange
        cases hrange
      obtain ⟨lowest, highest, hlowest, hhighest, hrange'⟩ := hranges hsome
      obtain ⟨hfirst, hlast⟩ := Prod.mk.inj (Option.some.inj (hrange'.symm.trans hrange))
      exact ⟨lowest, highest, hlowest, hhighest, hfirst, hlast⟩
    · rintro ⟨lowest, highest, hlowest, hhighest, rfl, rfl⟩
      exact Image.writtenRange_of_runs hlowest hhighest

end Asm6502
