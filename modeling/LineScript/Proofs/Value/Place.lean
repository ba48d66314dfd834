import LineScript.Proofs.Decimal.Canonical
import LineScript.Proofs.Evaluator

/-!
# Elements in place

A path of keys leads from a value to an element inside it. `Value.place?` puts another value there;
every container on the path is replaced by one that differs in this element only, with its element
kind widened as the instructions do it. The evaluator's `Value.update?` is the same with element
kinds forgotten.

The element at the path is then the new one (`follow?_of_place?`), and what lies on another path is
what it was (`follow?_of_place?_of_apart`). From the inside out, a value is placed by replacing the
container and placing that (`place?_concat`).
-/

set_option autoImplicit false

namespace LineScript

theorem Decimal.eq_of_toIndex? {m n : Decimal} {i : Nat} (hm : m.toIndex? = some i)
    (hn : n.toIndex? = some i) : m = n := by
  rw [(toIndex?_eq_some_iff.1 hm).1, (toIndex?_eq_some_iff.1 hn).1]

namespace Value

variable {c new root v : Value} {key other : Value} {keys : List Value}

/-- The container with another element under a key. A map may get a new key, an array no new
index. -/
def set? (container key v : Value) : Option Value :=
  match container, key with
  | .array element items, .number n =>
    n.toIndex?.bind fun i =>
      if i < items.length then some (.array (element.widen v.kind) (items.set i v)) else none
  | .map element entries, key =>
    some (.map (element.widen v.kind) (Entries.insert key.key v entries))
  | _, _ => none

/-- The value with `v` at the end of a path of keys. -/
def place? (v root : Value) : List Value → Option Value
  | [] => some v
  | [key] => root.set? key v
  | key :: next :: rest =>
    (root.at? key).bind
      fun inner => (place? v inner (next :: rest)).bind fun new => root.set? key new

/-- Two paths part at some key. -/
def Apart : List Value → List Value → Prop
  | key :: keys, other :: others => key.key ≠ other.key ∨ Apart keys others
  | _, _ => False

/-! ## One key -/

/-- A store succeeds at a place of an array or under any key of a map. -/
theorem set?_eq_some_iff :
    c.set? key v = some new ↔
      (∃ element items n i, c = .array element items ∧ key = .number n ∧ n.toIndex? = some i ∧
        i < items.length ∧ new = .array (element.widen v.kind) (items.set i v)) ∨
        ∃ element entries, c = .map element entries ∧
          new = .map (element.widen v.kind) (Entries.insert key.key v entries) := by
  constructor
  · intro h
    cases c with
    | array element items =>
      cases key with
      | number n =>
        obtain ⟨i, hi, h⟩ := Option.bind_eq_some_iff.1 h
        split at h
        · rename_i hlt
          exact Or.inl ⟨element, items, n, i, rfl, rfl, hi, hlt, (Option.some.inj h).symm⟩
        · cases h
      | _ => cases h
    | map element entries => exact Or.inr ⟨element, entries, rfl, (Option.some.inj h).symm⟩
    | _ => cases h
  · rintro (⟨element, items, n, i, rfl, rfl, hi, hlt, rfl⟩ | ⟨element, entries, rfl, rfl⟩)
    · simp [set?, hi, hlt]
    · simp [set?]

/-- What was stored is found at its place. -/
theorem at?_of_set? (h : c.set? key v = some new) : new.at? key = some v := by
  rcases set?_eq_some_iff.1 h with
    ⟨element, items, n, i, rfl, rfl, hi, hlt, rfl⟩ | ⟨element, entries, rfl, rfl⟩
  · simp [at?, hi, hlt]
  · simp [at?, Entries.get?_insert]

/-- A key finds what it found before, or it finds the new element, in the place of the old one. -/
theorem at?_other_of_set? (h : c.set? key v = some new) (other : Value) :
    new.at? other = c.at? other ∨
      other.key = key.key ∧ new.at? other = some v ∧ c.at? other = c.at? key := by
  rcases set?_eq_some_iff.1 h with
    ⟨element, items, n, i, rfl, rfl, hi, hlt, rfl⟩ | ⟨element, entries, rfl, rfl⟩
  · cases other with
    | number m =>
      cases hm : m.toIndex? with
      | none => simp [at?, hm]
      | some j =>
        by_cases hij : j = i
        · subst hij
          obtain rfl := Decimal.eq_of_toIndex? hm hi
          exact Or.inr ⟨rfl, at?_of_set? h, rfl⟩
        · left
          simp only [at?, hm, Option.bind_some]
          rw [List.getElem?_set_ne fun e => hij e.symm]
    | _ => exact Or.inl rfl
  · by_cases hkey : other.key = key.key
    · exact Or.inr ⟨hkey, by simp [at?, Entries.get?_insert, hkey], by simp [at?, hkey]⟩
    · left
      simp only [at?, Entries.get?_insert, if_neg hkey]

/-! Of a key only the text and the number count. -/

theorem at?_map (element : Kind) (entries : List (String × Value)) (key : Value) :
    (Value.map element entries).at? key = Entries.get? key.key entries := by
  cases key <;> rfl

theorem set?_map (element : Kind) (entries : List (String × Value)) (key v : Value) :
    (Value.map element entries).set? key v =
      some (.map (element.widen v.kind) (Entries.insert key.key v entries)) := by
  cases key <;> rfl

theorem at?_bare_key (c key : Value) : c.at? key.bare = c.at? key := by
  cases c with
  | map element entries => rw [at?_map, at?_map, key_bare]
  | array element items => cases key <;> simp [at?]
  | _ => rfl

theorem set?_bare_key (c key v : Value) : c.set? key.bare v = c.set? key v := by
  cases c with
  | map element entries => rw [set?_map, set?_map, key_bare]
  | array element items => cases key <;> simp [set?]
  | _ => rfl

/-! ## Paths -/

theorem follow?_bare_keys (root : Value) (keys : List Value) :
    root.follow? (keys.map bare) = root.follow? keys := by
  induction keys generalizing root with
  | nil => rfl
  | cons key rest ih => simp only [List.map_cons, follow?, at?_bare_key, ih]

theorem place?_cons (v root key : Value) {keys : List Value} (hne : keys ≠ []) :
    v.place? root (key :: keys) =
      (root.at? key).bind fun inner => (v.place? inner keys).bind fun new => root.set? key new := by
  cases keys with
  | nil => exact absurd rfl hne
  | cons next rest => rfl

/-- A value is placed from the inside out: the container there gets the value and is then placed
itself. -/
theorem place?_concat (v root : Value) (keys : List Value) (key : Value) :
    v.place? root (keys ++ [key]) =
      (root.follow? keys).bind fun c => (c.set? key v).bind fun new => new.place? root keys := by
  induction keys generalizing root with
  | nil => cases h : root.set? key v <;> simp [follow?, place?, h]
  | cons first rest ih =>
    rw [List.cons_append, place?_cons _ _ _ (by simp)]
    cases hat : root.at? first with
    | none => simp [follow?, hat]
    | some inner =>
      have hstep : ∀ new : Value, new.place? root (first :: rest) =
          (new.place? inner rest).bind fun new => root.set? first new := by
        intro new
        cases rest <;> simp [place?, hat]
      simp only [follow?, hat, Option.bind_some, ih, hstep, Option.bind_assoc]

/-- What a value is placed in has the container on the path. -/
theorem place?_cons_eq_some (h : v.place? root (key :: keys) = some new) :
    keys = [] ∧ root.set? key v = some new ∨
      ∃ inner inner', root.at? key = some inner ∧ v.place? inner keys = some inner' ∧
        root.set? key inner' = some new := by
  cases keys with
  | nil => exact Or.inl ⟨rfl, h⟩
  | cons next rest =>
    obtain ⟨inner, hat, h⟩ := Option.bind_eq_some_iff.1 h
    obtain ⟨inner', hplace, hset⟩ := Option.bind_eq_some_iff.1 h
    exact Or.inr ⟨inner, inner', hat, hplace, hset⟩

/-- The new element is found at the end of the path. -/
theorem follow?_of_place? (h : v.place? root keys = some new) : new.follow? keys = some v := by
  induction keys generalizing root new with
  | nil => exact h.symm
  | cons key rest ih =>
    rcases place?_cons_eq_some h with ⟨rfl, hset⟩ | ⟨inner, inner', _, hplace, hset⟩
    · simp [follow?, at?_of_set? hset]
    · rw [follow?, at?_of_set? hset, Option.bind_some]
      exact ih hplace

/-- What lies on a path that parts from the path of the new element is what it was. -/
theorem follow?_of_place?_of_apart {others : List Value} (h : v.place? root keys = some new)
    (ha : Apart keys others) : new.follow? others = root.follow? others := by
  -- On the path. Up to the key where the paths part, both lead through the containers that were
  -- replaced.
  induction keys generalizing root new others with
  | nil => cases others <;> exact ha.elim
  | cons key rest ih =>
    cases others with
    | nil => exact ha.elim
    | cons other others =>
      rw [follow?, follow?]
      rcases place?_cons_eq_some h with ⟨rfl, hset⟩ | ⟨inner, inner', hat, hplace, hset⟩
      · rcases at?_other_of_set? hset other with hsame | ⟨hkey, _, _⟩
        · rw [hsame]
        · rcases ha with hne | hrest
          · exact absurd hkey.symm hne
          · cases others <;> exact hrest.elim
      · rcases at?_other_of_set? hset other with hsame | ⟨hkey, hnew, hold⟩
        · rw [hsame]
        · rw [hnew, hold, hat, Option.bind_some, Option.bind_some]
          exact ih hplace (ha.resolve_left fun hne => hne hkey.symm)

end Value

end LineScript
