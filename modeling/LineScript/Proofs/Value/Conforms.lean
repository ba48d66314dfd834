import LineScript.Proofs.Expr.Nodes
import LineScript.Proofs.Value.Bare

/-!
# Values and kinds

`Value.conforms` says what it means that a value is of a kind: a scalar is of its own kind, and an
array or a map is of kind `array e` or `map e` if all its elements are of kind `e`. The element kind
that a container carries along plays no part in this; it is a second opinion on the same thing, and
`Value.honest` says that it is right, at every depth.

Reading and replacing elements are described here for both. A replaced element can make a container
mixed; `Kind.widen` then gives `any`, which every value conforms to.
-/

set_option autoImplicit false

namespace LineScript

namespace Value

/-- The value is of the kind. Every value is an `any`. -/
def conforms : Value → Kind → Bool
  | _, .any => true
  | .array _ items, .array element => items.all fun v => v.conforms element
  | .map _ entries, .map element => entries.all fun p => p.2.conforms element
  | _, .array _ => false
  | _, .map _ => false
  | v, kind => v.kind == kind

/-- A mixed or empty container asks nothing of its elements. -/
@[simp]
theorem conforms_any (v : Value) : v.conforms .any = true := by
  cases v <;> rfl

/-- What a known kind says about an array: the elements are of the element kind, whatever kind the
array carries. -/
theorem conforms_array_iff {v : Value} {element : Kind} :
    v.conforms (.array element) = true ↔
      ∃ tag items, v = .array tag items ∧ ∀ item ∈ items, item.conforms element = true := by
  cases v with
  | array tag items =>
    rw [conforms, List.all_eq_true]
    constructor
    · exact fun h => ⟨tag, items, rfl, h⟩
    · rintro ⟨_, _, heq, h⟩
      cases heq
      exact h
  | _ => simp [conforms]

/-- What a known kind says about a map; keys are texts and need no kind. -/
theorem conforms_map_iff {v : Value} {element : Kind} :
    v.conforms (.map element) = true ↔
      ∃ tag entries, v = .map tag entries ∧ ∀ p ∈ entries, p.2.conforms element = true := by
  cases v with
  | map tag entries =>
    rw [conforms, List.all_eq_true]
    constructor
    · exact fun h => ⟨tag, entries, rfl, h⟩
    · rintro ⟨_, _, heq, h⟩
      cases heq
      exact h
  | _ => simp [conforms]

/-- Where code is chosen by this kind, the operand is what the instruction needs. -/
theorem conforms_string_iff {v : Value} : v.conforms .string = true ↔ ∃ s, v = .string s := by
  cases v <;> simp [conforms, kind]

/-- As for texts. -/
theorem conforms_data_iff {v : Value} : v.conforms .data = true ↔ ∃ bytes, v = .data bytes := by
  cases v <;> simp [conforms, kind]

/-! ## Elements -/

variable {a m v new : Value} {element : Kind}

/-- A kind that is known of an array is known of its items. -/
theorem conforms_of_getItem {index : Decimal} (h : a.conforms (.array element) = true)
    (hv : a.getItem index = .ok v) : v.conforms element = true := by
  obtain ⟨tag, items, rfl, hall⟩ := conforms_array_iff.1 h
  obtain ⟨_, _, i, heq, _, hi⟩ := getItem_eq_ok_iff.1 hv
  cases heq
  exact hall v (List.mem_of_getElem? hi)

/-- An entry that is found is there. -/
theorem mem_of_get? {key : String} {entries : List (String × Value)}
    (h : Entries.get? key entries = some v) : ∃ k, (k, v) ∈ entries := by
  induction entries with
  | nil => cases h
  | cons p rest ih =>
    obtain ⟨k, u⟩ := p
    rw [Entries.get?] at h
    split at h
    · obtain rfl := Option.some.inj h
      exact ⟨k, List.mem_cons_self⟩
    · obtain ⟨k', hk'⟩ := ih h
      exact ⟨k', List.mem_cons_of_mem _ hk'⟩

/-- Insertion adds one entry and keeps or drops the others. -/
theorem mem_insert {key : String} {entries : List (String × Value)} {p : String × Value}
    (h : p ∈ Entries.insert key v entries) : p = (key, v) ∨ p ∈ entries := by
  induction entries with
  | nil => simpa [Entries.insert] using h
  | cons q rest ih =>
    obtain ⟨k, u⟩ := q
    rw [Entries.insert] at h
    split at h
    · rcases List.mem_cons.1 h with h | h
      · exact Or.inl h
      · exact Or.inr (List.mem_cons_of_mem _ h)
    · split at h
      · exact List.mem_cons.1 h
      · rcases List.mem_cons.1 h with h | h
        · exact Or.inr (h ▸ List.mem_cons_self)
        · rcases ih h with h | h
          · exact Or.inl h
          · exact Or.inr (List.mem_cons_of_mem _ h)

/-- A kind that is known of a map is known of its entries. -/
theorem conforms_of_getEntry {key : String} (h : m.conforms (.map element) = true)
    (hv : m.getEntry key = .ok v) : v.conforms element = true := by
  obtain ⟨tag, entries, rfl, hall⟩ := conforms_map_iff.1 h
  obtain ⟨_, _, heq, hget⟩ := getEntry_eq_ok_iff.1 hv
  cases heq
  obtain ⟨k, hk⟩ := mem_of_get? hget
  exact hall _ hk

/-- What conforms to an element kind conforms to it after a value was put in, and so does the value,
if its own kind is what it is known to be. -/
theorem conforms_widen (element : Kind) {stored : Option Kind}
    (hv : ∀ k, stored = some k → v.conforms k = true) :
    v.conforms (element.widen stored) = true ∧
      ∀ {u : Value}, u.conforms element = true → u.conforms (element.widen stored) = true := by
  unfold Kind.widen
  by_cases h : element = .any ∨ stored = some element
  · rw [if_pos h]
    refine ⟨?_, fun hu => hu⟩
    rcases h with rfl | h
    · exact conforms_any v
    · exact hv element h
  · rw [if_neg h]
    exact ⟨conforms_any v, fun _ => conforms_any _⟩

/-- A known kind survives a store, widened by what is known of the new item. Nothing has to be known
of it. -/
theorem conforms_of_setItem {index : Decimal} {stored : Option Kind}
    (h : a.conforms (.array element) = true) (hv : ∀ k, stored = some k → v.conforms k = true)
    (hnew : a.setItem index v = .ok new) : new.conforms (.array (element.widen stored)) = true := by
  obtain ⟨tag, items, rfl, hall⟩ := conforms_array_iff.1 h
  obtain ⟨_, _, i, heq, _, rfl⟩ := setItem_eq_ok_iff.1 hnew
  cases heq
  obtain ⟨hself, hothers⟩ := conforms_widen element hv
  refine conforms_array_iff.2 ⟨_, _, rfl, fun item hitem => ?_⟩
  rcases List.mem_or_eq_of_mem_set hitem with hold | rfl
  · exact hothers (hall item hold)
  · exact hself

/-- As for arrays, also where the key is a new one. -/
theorem conforms_of_setEntry {key : String} {stored : Option Kind}
    (h : m.conforms (.map element) = true) (hv : ∀ k, stored = some k → v.conforms k = true)
    (hnew : m.setEntry key v = .ok new) : new.conforms (.map (element.widen stored)) = true := by
  obtain ⟨tag, entries, rfl, hall⟩ := conforms_map_iff.1 h
  obtain ⟨_, _, heq, rfl⟩ := setEntry_eq_ok_iff.1 hnew
  cases heq
  obtain ⟨hself, hothers⟩ := conforms_widen element hv
  refine conforms_map_iff.2 ⟨_, _, rfl, fun p hp => ?_⟩
  rcases mem_insert hp with rfl | hold
  · exact hself
  · exact hothers (hall p hold)

/-! ## Element kinds that are right -/

mutual

/-- Every container inside the value, itself included, has only elements of the kind it carries. -/
def honest : Value → Bool
  | .array element items => (items.all fun v => v.conforms element) && honestItems items
  | .map element entries => (entries.all fun p => p.2.conforms element) && honestEntries entries
  | _ => true

/-- Item by item. -/
def honestItems : List Value → Bool
  | [] => true
  | item :: rest => honest item && honestItems rest

/-- Entry by entry. -/
def honestEntries : List (String × Value) → Bool
  | [] => true
  | (_, value) :: rest => honest value && honestEntries rest

end

/-- The recursion through lists as a quantifier. -/
theorem honestItems_iff {items : List Value} :
    honestItems items = true ↔ ∀ v ∈ items, v.honest = true := by
  induction items with
  | nil => simp [honestItems]
  | cons item rest ih => simp [honestItems, ih]

/-- As for items. -/
theorem honestEntries_iff {entries : List (String × Value)} :
    honestEntries entries = true ↔ ∀ p ∈ entries, p.2.honest = true := by
  induction entries with
  | nil => simp [honestEntries]
  | cons p rest ih => simp [honestEntries, ih]

/-- What an honest array promises about each of its items: the kind that it carries, and honesty all
the way down. -/
theorem honest_array_iff {items : List Value} :
    (Value.array element items).honest = true ↔
      ∀ v ∈ items, v.conforms element = true ∧ v.honest = true := by
  simp only [honest, Bool.and_eq_true, List.all_eq_true, honestItems_iff]
  constructor
  · exact fun h v hv => ⟨h.1 v hv, h.2 v hv⟩
  · exact fun h => ⟨fun v hv => (h v hv).1, fun v hv => (h v hv).2⟩

/-- What an honest map promises about each of its entries. -/
theorem honest_map_iff {entries : List (String × Value)} :
    (Value.map element entries).honest = true ↔
      ∀ p ∈ entries, p.2.conforms element = true ∧ p.2.honest = true := by
  simp only [honest, Bool.and_eq_true, List.all_eq_true, honestEntries_iff]
  constructor
  · exact fun h p hp => ⟨h.1 p hp, h.2 p hp⟩
  · exact fun h => ⟨fun p hp => (h p hp).1, fun p hp => (h p hp).2⟩

/-- A scalar conforms to its kind, and carries no element kind that could be wrong. -/
theorem conforms_kind_of_isScalar (h : v.isScalar = true) :
    v.conforms v.kind = true ∧ v.honest = true := by
  cases v with
  | array element items => cases h
  | map element entries => cases h
  | _ => exact ⟨by simp [conforms, kind], by simp [honest]⟩

/-- An honest value conforms to the kind it claims to have. -/
theorem conforms_kind_of_honest (h : v.honest = true) : v.conforms v.kind = true := by
  cases v with
  | array element items =>
    exact conforms_array_iff.2 ⟨_, _, rfl, fun v hv => (honest_array_iff.1 h v hv).1⟩
  | map element entries =>
    exact conforms_map_iff.2 ⟨_, _, rfl, fun p hp => (honest_map_iff.1 h p hp).1⟩
  | _ => simp [conforms, kind]

/-- Items of an honest array are honest. -/
theorem honest_of_getItem {index : Decimal} (h : a.honest = true) (hv : a.getItem index = .ok v) :
    v.honest = true := by
  obtain ⟨_, items, i, rfl, _, hi⟩ := getItem_eq_ok_iff.1 hv
  exact (honest_array_iff.1 h v (List.mem_of_getElem? hi)).2

/-- Entries of an honest map are honest. -/
theorem honest_of_getEntry {key : String} (h : m.honest = true) (hv : m.getEntry key = .ok v) :
    v.honest = true := by
  obtain ⟨_, entries, rfl, hget⟩ := getEntry_eq_ok_iff.1 hv
  obtain ⟨k, hk⟩ := mem_of_get? hget
  exact (honest_map_iff.1 h _ hk).2

/-- The element kind is widened by the kind the new item claims to have. That is the kind it has, if
the item is honest. -/
theorem honest_of_setItem {index : Decimal} (h : a.honest = true) (hv : v.honest = true)
    (hnew : a.setItem index v = .ok new) : new.honest = true := by
  obtain ⟨element, items, i, rfl, _, rfl⟩ := setItem_eq_ok_iff.1 hnew
  have hkind : ∀ k, some v.kind = some k → v.conforms k = true :=
    fun k hk => Option.some.inj hk ▸ conforms_kind_of_honest hv
  obtain ⟨hself, hothers⟩ := conforms_widen element hkind
  refine honest_array_iff.2 fun item hitem => ?_
  rcases List.mem_or_eq_of_mem_set hitem with hold | rfl
  · obtain ⟨hc, hh⟩ := honest_array_iff.1 h item hold
    exact ⟨hothers hc, hh⟩
  · exact ⟨hself, hv⟩

/-- As for items; the entry may be a new one. -/
theorem honest_of_setEntry {key : String} (h : m.honest = true) (hv : v.honest = true)
    (hnew : m.setEntry key v = .ok new) : new.honest = true := by
  obtain ⟨element, entries, rfl, rfl⟩ := setEntry_eq_ok_iff.1 hnew
  have hkind : ∀ k, some v.kind = some k → v.conforms k = true :=
    fun k hk => Option.some.inj hk ▸ conforms_kind_of_honest hv
  obtain ⟨hself, hothers⟩ := conforms_widen element hkind
  refine honest_map_iff.2 fun p hp => ?_
  rcases mem_insert hp with rfl | hold
  · exact ⟨hself, hv⟩
  · obtain ⟨hc, hh⟩ := honest_map_iff.1 h p hold
    exact ⟨hothers hc, hh⟩

end Value

end LineScript
