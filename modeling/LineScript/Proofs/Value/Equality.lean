import LineScript.Proofs.Expr.Nodes
import LineScript.Proofs.Value.Bare
import LineScript.Proofs.Value.Entries

/-!
# What equality sees

Equality looks at everything in a value but the element kinds: two values are equal exactly if their
bare forms are the same (`same_iff_bare`). So it is an equivalence, and what does not change with
the bare form is the same for equal values, their texts and their keys among it.

Maps in the order of their keys are equal exactly if they have equal values under all keys
(`same_map_iff_lookup`): one entry of the first list that is not in the second, or one at another
place, would be missed by a lookup, because the keys in front of an entry are smaller than its own
and those behind it are larger.
-/

set_option autoImplicit false

namespace LineScript

/-! ## Entries in order -/

namespace Entries

variable {α : Type} {key : String} {value : α} {rest xs ys : List (String × α)}

theorem get?_cons_self (key : String) (value : α) (rest : List (String × α)) :
    get? key ((key, value) :: rest) = some value := if_pos rfl

theorem get?_cons_of_ne {other : String} (h : other ≠ key) :
    get? other ((key, value) :: rest) = get? other rest :=
  if_neg h

/-- No key up to the first one of entries in order is found behind it. -/
theorem Sorted.get?_of_le {other : String} (h : Sorted ((key, value) :: rest)) (hle : other ≤ key) :
    get? other rest = none := by
  rw [get?_eq_none_iff]
  intro hmem
  obtain ⟨p, hp, rfl⟩ := List.mem_map.1 hmem
  exact absurd hle (not_le.2 ((List.pairwise_cons.1 h).1 p hp))

/-- Entries in order are determined by what is found under the keys. -/
theorem Sorted.ext (hx : Sorted xs) (hy : Sorted ys)
    (h : ∀ key, get? key xs = get? key ys) : xs = ys := by
  induction xs generalizing ys with
  | nil =>
    cases ys with
    | nil => rfl
    | cons q ys =>
      have hfound := h q.1
      rw [get?_cons_self] at hfound
      cases hfound
  | cons p xs ih =>
    cases ys with
    | nil =>
      have hfound := h p.1
      rw [get?_cons_self] at hfound
      cases hfound
    | cons q ys =>
      obtain ⟨k, v⟩ := p
      obtain ⟨l, w⟩ := q
      -- The smaller one of the two first keys is found on one side only, unless they are the same.
      have hkey : k = l := by
        rcases lt_trichotomy k l with hlt | heq | hgt
        · have hfound := h k
          rw [get?_cons_self, get?_cons_of_ne hlt.ne, hy.get?_of_le hlt.le] at hfound
          cases hfound
        · exact heq
        · have hfound := h l
          rw [get?_cons_self, get?_cons_of_ne hgt.ne, hx.get?_of_le hgt.le] at hfound
          cases hfound
      subst hkey
      have hvalue : v = w := by
        have hfound := h k
        rw [get?_cons_self, get?_cons_self] at hfound
        exact Option.some.inj hfound
      have hrest : xs = ys := by
        refine ih (List.pairwise_cons.1 hx).2 (List.pairwise_cons.1 hy).2 fun key => ?_
        by_cases hk : key = k
        · rw [hk, hx.get?_of_le le_rfl, hy.get?_of_le le_rfl]
        · have hfound := h key
          rwa [get?_cons_of_ne hk, get?_cons_of_ne hk] at hfound
      rw [hvalue, hrest]

end Entries

namespace Value

variable {a b c : Value} {element other : Kind}

/-! ## Equality and bare forms -/

/-- Items are compared one by one, and two arrays of different lengths differ. -/
theorem sameItems_iff {xs ys : List Value} (h : ∀ v ∈ xs, ∀ w, v.same w = true ↔ v.bare = w.bare) :
    sameItems xs ys = true ↔ xs.map bare = ys.map bare := by
  induction xs generalizing ys with
  | nil => cases ys <;> simp [sameItems]
  | cons v xs ih =>
    cases ys with
    | nil => simp [sameItems]
    | cons w ys =>
      rw [sameItems, Bool.and_eq_true, h v List.mem_cons_self w,
        ih fun v hv => h v (List.mem_cons_of_mem _ hv),
        List.map_cons, List.map_cons, List.cons.injEq]

theorem sameEntries_iff {xs ys : List (String × Value)}
    (h : ∀ p ∈ xs, ∀ w, p.2.same w = true ↔ p.2.bare = w.bare) :
    sameEntries xs ys = true ↔
      xs.map (fun p => (p.1, p.2.bare)) = ys.map fun p => (p.1, p.2.bare) := by
  induction xs generalizing ys with
  | nil => cases ys <;> simp [sameEntries]
  | cons p xs ih =>
    cases ys with
    | nil => simp [sameEntries]
    | cons q ys =>
      rw [sameEntries, Bool.and_eq_true, Bool.and_eq_true, beq_iff_eq, h p List.mem_cons_self q.2,
        ih fun p hp => h p (List.mem_cons_of_mem _ hp), List.map_cons, List.map_cons,
        List.cons.injEq, Prod.mk.injEq]

/-- **Equality ignores element kinds and nothing else.** -/
theorem same_iff_bare : a.same b = true ↔ a.bare = b.bare := by
  -- A container is never compared with anything but its elements, so no element kind decides at any
  -- depth.
  induction a using Value.induct generalizing b with
  | array element items ih =>
    cases b with
    | array other items' =>
      rw [same, sameItems_iff fun v hv w => ih v hv, bare_array, bare_array, array.injEq,
        and_iff_right rfl]
    | _ => simp [same]
  | map element entries ih =>
    cases b with
    | map other entries' =>
      rw [same, sameEntries_iff fun p hp w => ih p hp, bare_map, bare_map, map.injEq,
        and_iff_right rfl]
    | _ => simp [same]
  | _ => cases b <;> simp [same]

/-- Being an equation of bare values, equality needs no proof of its own that it is an equivalence.
-/
theorem same_equivalence : Equivalence fun a b : Value => a.same b = true where
  refl _ := same_iff_bare.2 rfl
  symm h := same_iff_bare.2 (same_iff_bare.1 h).symm
  trans h h' := same_iff_bare.2 ((same_iff_bare.1 h).trans (same_iff_bare.1 h'))

theorem same_refl (a : Value) : a.same a = true := same_equivalence.refl a

/-- Two lookups find equal values, or nothing, exactly if their bare forms are the same. -/
theorem rel_same_iff {x y : Option Value} :
    Option.Rel (fun v w => v.same w = true) x y ↔ x.map bare = y.map bare := by
  cases x <;> cases y <;> simp [same_iff_bare]

/-- Maps in order are equal exactly if under every key they have nothing or equal values. -/
theorem same_map_iff_lookup {xs ys : List (String × Value)} (hx : Entries.Sorted xs)
    (hy : Entries.Sorted ys) :
    (Value.map element xs).same (.map other ys) = true ↔
      ∀ key,
        Option.Rel (fun v w => v.same w = true) (Entries.get? key xs) (Entries.get? key ys) := by
  have hlookup : ∀ key,
      Option.Rel (fun v w => v.same w = true) (Entries.get? key xs) (Entries.get? key ys) ↔
      Entries.get? key (xs.map fun p => (p.1, p.2.bare)) =
        Entries.get? key (ys.map fun p => (p.1, p.2.bare)) := by
    intro key
    rw [get?_entries_bare, get?_entries_bare, rel_same_iff]
  have hsorted : ∀ {zs : List (String × Value)}, Entries.Sorted zs →
      Entries.Sorted (zs.map fun p => (p.1, p.2.bare)) := fun h => List.pairwise_map.2 h
  rw [same_iff_bare, bare_map, bare_map, map.injEq, and_iff_right rfl]
  constructor
  · exact fun h key => (hlookup key).2 (h ▸ rfl)
  · exact fun h => (hsorted hx).ext (hsorted hy) fun key => (hlookup key).1 (h key)

/-! ## What equal values have in common -/

/-- Element kinds are not shown. -/
theorem display_eq_of_same (h : a.same b = true) : a.display = b.display := by
  rw [← display_bare a, same_iff_bare.1 h, display_bare]

theorem key_eq_of_same (h : a.same b = true) : a.key = b.key := display_eq_of_same h

theorem isTrue_eq_of_same (h : a.same b = true) : a.isTrue = b.isTrue := by
  rw [← isTrue_bare a, same_iff_bare.1 h, isTrue_bare]

/-- Equal values are the same scalar, both arrays of equal items, or both maps of equal entries. -/
theorem same_cases (h : a.same b = true) :
    (a.isScalar = true ∧ b = a) ∨
      (∃ element other xs ys, a = .array element xs ∧
        b = .array other ys ∧ xs.map bare = ys.map bare) ∨
      ∃ element other xs ys, a = .map element xs ∧ b = .map other ys ∧
        xs.map (fun p => (p.1, p.2.bare)) = ys.map fun p => (p.1, p.2.bare) := by
  have hbare := same_iff_bare.1 h
  cases a with
  | array element xs =>
    cases b with
    | array other ys =>
      exact Or.inr (Or.inl ⟨element, other, xs, ys, rfl, rfl, by simpa using hbare⟩)
    | _ => simp at hbare
  | map element xs =>
    cases b with
    | map other ys => exact Or.inr (Or.inr ⟨element, other, xs, ys, rfl, rfl, by simpa using hbare⟩)
    | _ => simp at hbare
  | _ => cases b <;> simp_all [isScalar]

end Value

end LineScript
