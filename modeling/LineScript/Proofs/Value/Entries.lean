import LineScript.Proofs.Text.ByteOrder
import LineScript.Value.Entries

/-!
# Entries in the order of their keys

Entries are looked up and inserted from the front, without regard to their order (`get?_insert`).
That an insertion replaces the one entry of its key, and that it keeps the order, is true of entries
that are in order (`Sorted.insert`, `Sorted.length_insert`). The order of the keys is that of their
bytes (`sorted_iff_bytes`).
-/

set_option autoImplicit false

namespace LineScript.Entries

variable {α : Type} {key : String} {value : α} {entries : List (String × α)}

/-- A key without an entry finds nothing. -/
theorem get?_eq_none_iff : get? key entries = none ↔ key ∉ entries.map Prod.fst := by
  induction entries with
  | nil => simp [get?]
  | cons entry rest ih =>
    rw [get?, List.map_cons, List.mem_cons, not_or]
    split
    · rename_i hkey
      simp [hkey]
    · rename_i hkey
      rw [ih]
      exact (and_iff_right hkey).symm

theorem Sorted.insert (h : Sorted entries) (key : String) (value : α) :
    Sorted (insert key value entries) := by
  induction entries with
  | nil => exact List.pairwise_singleton _ _
  | cons entry rest ih =>
    obtain ⟨k, v⟩ := entry
    obtain ⟨hfirst, hrest⟩ := List.pairwise_cons.1 h
    rw [Entries.insert]
    split
    · rename_i hkey
      subst hkey
      exact List.pairwise_cons.2 ⟨hfirst, hrest⟩
    · rename_i hne
      split
      · rename_i hlt
        exact List.pairwise_cons.2
          ⟨List.forall_mem_cons.2 ⟨hlt, fun p hp => hlt.trans (hfirst p hp)⟩, h⟩
      · rename_i hnot
        have hgt : k < key := lt_of_le_of_ne (not_lt.1 hnot) (Ne.symm hne)
        refine List.pairwise_cons.2 ⟨fun p hp => ?_, ih hrest⟩
        rcases mem_keys_insert (List.mem_map_of_mem hp) with hkey | hold
        · exact lt_of_lt_of_eq hgt hkey.symm
        · obtain ⟨q, hq, hkey⟩ := List.mem_map.1 hold
          exact lt_of_lt_of_eq (hfirst q hq) hkey

theorem Sorted.nodup (h : Sorted entries) : (entries.map Prod.fst).Nodup :=
  List.pairwise_map.2 (h.imp ne_of_lt)

/-- There is one entry more if there was none for the key, and as many as before if there was
one. -/
theorem Sorted.length_insert (h : Sorted entries) (key : String) (value : α) :
    (Entries.insert key value entries).length =
      if key ∈ entries.map Prod.fst then entries.length else entries.length + 1 := by
  induction entries with
  | nil => rfl
  | cons entry rest ih =>
    obtain ⟨k, v⟩ := entry
    obtain ⟨hfirst, hrest⟩ := List.pairwise_cons.1 h
    rw [Entries.insert, List.map_cons]
    split
    · rename_i hkey
      rw [if_pos (hkey ▸ List.mem_cons_self)]
      rfl
    · rename_i hne
      split
      · rename_i hlt
        -- All keys behind the place are larger.
        have habsent : key ∉ k :: rest.map Prod.fst := by
          intro hmem
          rcases List.mem_cons.1 hmem with hkey | hmem
          · exact hne hkey
          · obtain ⟨p, hp, hkey⟩ := List.mem_map.1 hmem
            exact lt_asymm hlt (lt_of_lt_of_eq (hfirst p hp) hkey)
        rw [if_neg habsent]
        rfl
      · rw [List.length_cons, ih hrest]
        simp only [List.mem_cons, hne, false_or, List.length_cons]
        split <;> rfl

/-- The keys are in the order of their bytes, each key once. -/
theorem sorted_iff_bytes :
    Sorted entries ↔ entries.Pairwise fun a b => Utf8.encode a.1 < Utf8.encode b.1 := by
  simp only [Sorted, Utf8.encode_lt_iff]

end LineScript.Entries
