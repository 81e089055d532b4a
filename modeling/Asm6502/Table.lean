/-!
# Tables in order of arrival

A finite map that remembers the order in which its keys first arrived. Giving a key a new value keeps
its place.

* `Table.find?_insert`: looking up after an insertion.
* `Table.keys_insert`: an insertion appends a new key and leaves a known one in place.
-/

namespace Asm6502

/-- A map from `κ` to `ν` whose entries stand in order of first arrival. -/
structure Table (κ : Type) (ν : Type) where
  toList : List (κ × ν)
  deriving DecidableEq

namespace Table

variable {κ ν : Type} [DecidableEq κ]

/-- The table without entries. -/
def empty : Table κ ν := ⟨[]⟩

/-- The value of a key in a list of entries. -/
def findIn (k : κ) : List (κ × ν) → Option ν
  | [] => none
  | (key, value) :: rest => if key = k then some value else findIn k rest

/-- Entries with the value of a key set: replaced where the key stands, else at the end. -/
def insertIn (k : κ) (v : ν) : List (κ × ν) → List (κ × ν)
  | [] => [(k, v)]
  | (key, value) :: rest => if key = k then (key, v) :: rest else (key, value) :: insertIn k v rest

/-- The value of a key. -/
def find? (t : Table κ ν) (k : κ) : Option ν := findIn k t.toList

/-- Whether a key has a value. -/
def contains (t : Table κ ν) (k : κ) : Bool := (t.find? k).isSome

/-- The table with the value of a key set. -/
def insert (t : Table κ ν) (k : κ) (v : ν) : Table κ ν := ⟨insertIn k v t.toList⟩

/-- The keys in order of first arrival. -/
def keys (t : Table κ ν) : List κ := t.toList.map Prod.fst

/-- The number of keys. -/
def size (t : Table κ ν) : Nat := t.toList.length

/-- A table from a list of entries; of several values of one key the last counts. -/
def ofList (entries : List (κ × ν)) : Table κ ν :=
  entries.foldl (fun t (k, v) => t.insert k v) empty

@[simp] theorem find?_empty (k : κ) : (empty : Table κ ν).find? k = none := rfl

theorem findIn_insertIn (k j : κ) (v : ν) (entries : List (κ × ν)) :
    findIn j (insertIn k v entries) = if k = j then some v else findIn j entries := by
  induction entries with
  | nil => simp [insertIn, findIn]
  | cons entry rest ih =>
      obtain ⟨key, value⟩ := entry
      by_cases hk : key = k
      · subst hk
        by_cases hj : key = j <;> simp [insertIn, findIn, hj]
      · by_cases hj : key = j
        · subst hj
          simp [insertIn, findIn, hk, Ne.symm hk]
        · simp [insertIn, findIn, hk, hj, ih]

theorem find?_insert (t : Table κ ν) (k j : κ) (v : ν) :
    (t.insert k v).find? j = if k = j then some v else t.find? j :=
  findIn_insertIn k j v t.toList

theorem map_fst_insertIn (k : κ) (v : ν) (entries : List (κ × ν)) :
    (insertIn k v entries).map Prod.fst =
      if k ∈ entries.map Prod.fst then entries.map Prod.fst else entries.map Prod.fst ++ [k] := by
  induction entries with
  | nil => simp [insertIn]
  | cons entry rest ih =>
      obtain ⟨key, value⟩ := entry
      by_cases hk : key = k
      · simp [insertIn, hk]
      · by_cases hm : k ∈ rest.map Prod.fst
        · simp [insertIn, hk, ih, hm]
        · simp [insertIn, hk, Ne.symm hk, ih, hm]

theorem keys_insert (t : Table κ ν) (k : κ) (v : ν) :
    (t.insert k v).keys = if k ∈ t.keys then t.keys else t.keys ++ [k] :=
  map_fst_insertIn k v t.toList

end Table

end Asm6502
