/-!
# Entries of a map

A map is kept as a list of entries in the order of their keys, each key once. Keys are ordered by
code points, which is also the order of their UTF-8 bytes.
-/

set_option autoImplicit false

namespace LineScript.Entries

variable {α : Type}

/-- Entries in strictly increasing order of their keys. -/
def Sorted (entries : List (String × α)) : Prop := entries.Pairwise (fun a b => a.1 < b.1)

/-- The value under a key. -/
def get? (key : String) : List (String × α) → Option α
  | [] => none
  | (k, v) :: rest => if key = k then some v else get? key rest

/-- Puts a value under a key, in place of the one that was there. -/
def insert (key : String) (value : α) : List (String × α) → List (String × α)
  | [] => [(key, value)]
  | (k, v) :: rest =>
    if key = k then (key, value) :: rest
    else if key < k then (key, value) :: (k, v) :: rest
    else (k, v) :: insert key value rest

/-- A lookup after an insertion finds the new value under the new key, and what was there before
under any other. -/
theorem get?_insert (key other : String) (value : α) (entries : List (String × α)) :
    get? other (insert key value entries) =
      if other = key then some value else get? other entries := by
  induction entries with
  | nil => rfl
  | cons entry rest ih =>
    obtain ⟨k, v⟩ := entry
    rw [insert]
    split
    · rename_i same
      subst same
      by_cases hit : other = key <;> simp [get?, hit]
    · split
      · by_cases hit : other = key <;> simp [get?, hit]
      · rename_i differ _
        by_cases hit : other = k
        · subst hit
          have away : other ≠ key := fun e => differ e.symm
          simp [get?, away]
        · simp [get?, hit, ih]

/-- The keys after an insertion are the old ones and the new one. -/
theorem mem_keys_insert {key k : String} {value : α} {entries : List (String × α)}
    (h : k ∈ (insert key value entries).map Prod.fst) : k = key ∨ k ∈ entries.map Prod.fst := by
  induction entries with
  | nil => simpa [insert] using h
  | cons entry rest ih =>
    obtain ⟨l, v⟩ := entry
    rw [insert] at h
    split at h
    · simp_all
    · split at h
      · simpa using h
      · rcases List.mem_cons.1 h with rfl | h
        · simp
        · rcases ih h with rfl | h
          · exact Or.inl rfl
          · exact Or.inr (List.mem_cons_of_mem _ h)

/-- The entries of a list of pairs, a later pair in place of an earlier one with the same key. -/
def ofList (pairs : List (String × α)) : List (String × α) :=
  pairs.foldl (fun entries pair => insert pair.1 pair.2 entries) []

end LineScript.Entries
