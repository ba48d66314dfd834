import LineScript.Proofs.Machine.Instruction

/-!
# Values without element kinds

`Value.bare` forgets the element kinds of a value, at every depth. Nothing a program can observe
depends on them: text, truth, equality, order and the contents of containers are the same for a
value and its bare form. Two values with the same bare form are therefore equal to a program, and
the lemmas here say so for each operation that instructions are made of. An operation that succeeds
on values succeeds on their bare forms, with the bare form of the result.

The one thing that does change is the wording of a fault, which names the kind it found.
-/

set_option autoImplicit false

namespace LineScript

namespace Value

/-- Induction over values, with the hypothesis for each item and each entry. -/
@[elab_as_elim]
theorem induct {P : Value → Prop} (number : ∀ n, P (.number n)) (bool : ∀ b, P (.bool b))
    (string : ∀ s, P (.string s)) (char : ∀ c, P (.char c)) (data : ∀ bytes, P (.data bytes))
    (array : ∀ element items, (∀ v ∈ items, P v) → P (.array element items))
    (map : ∀ element entries, (∀ p ∈ entries, P p.2) → P (.map element entries))
    (v : Value) : P v := by
  refine @Value.rec P (fun vs => ∀ v ∈ vs, P v) (fun ps => ∀ p ∈ ps, P p.2) (fun p => P p.2)
    number bool string char data array map ?_ ?_ ?_ ?_ ?_ v
  · intro v hv
    cases hv
  · intro head tail hhead htail v hv
    rcases List.mem_cons.1 hv with rfl | hv
    · exact hhead
    · exact htail v hv
  · intro p hp
    cases hp
  · intro head tail hhead htail p hp
    rcases List.mem_cons.1 hp with rfl | hp
    · exact hhead
    · exact htail p hp
  · intro key value hvalue
    exact hvalue

/-! ## Forgetting element kinds -/

mutual

/-- The value with `any` for every element kind. -/
def bare : Value → Value
  | .array _ items => .array .any (bareItems items)
  | .map _ entries => .map .any (bareEntries entries)
  | v => v

/-- Item by item. -/
def bareItems : List Value → List Value
  | [] => []
  | item :: rest => bare item :: bareItems rest

/-- Entry by entry; keys are texts and stay. -/
def bareEntries : List (String × Value) → List (String × Value)
  | [] => []
  | (key, value) :: rest => (key, bare value) :: bareEntries rest

end

/-- The recursion through lists is a map, and proofs use the map. -/
theorem bareItems_eq_map (items : List Value) : bareItems items = items.map bare := by
  induction items with
  | nil => rfl
  | cons item rest ih => rw [bareItems, ih, List.map_cons]

/-- As for items; the keys stay. -/
theorem bareEntries_eq_map (entries : List (String × Value)) :
    bareEntries entries = entries.map fun p => (p.1, p.2.bare) := by
  induction entries with
  | nil => rfl
  | cons p rest ih => rw [bareEntries, ih, List.map_cons]

@[simp]
theorem bare_number (n : Decimal) : (Value.number n).bare = .number n := rfl

@[simp]
theorem bare_bool (b : Bool) : (Value.bool b).bare = .bool b := rfl

@[simp]
theorem bare_string (s : String) : (Value.string s).bare = .string s := rfl

@[simp]
theorem bare_char (c : Char) : (Value.char c).bare = .char c := rfl

@[simp]
theorem bare_data (bytes : List UInt8) : (Value.data bytes).bare = .data bytes := rfl

/-- The form in which simplification meets a bare array. -/
@[simp]
theorem bare_array (element : Kind) (items : List Value) :
    (Value.array element items).bare = .array .any (items.map bare) :=
  congrArg (Value.array .any) (bareItems_eq_map items)

/-- The form in which simplification meets a bare map. -/
@[simp]
theorem bare_map (element : Kind) (entries : List (String × Value)) :
    (Value.map element entries).bare = .map .any (entries.map fun p => (p.1, p.2.bare)) :=
  congrArg (Value.map .any) (bareEntries_eq_map entries)

/-! ## Observations -/

/-- Containers are true or false by their contents. -/
@[simp]
theorem isTrue_bare (v : Value) : v.bare.isTrue = v.isTrue := by
  cases v <;> simp [isTrue]

/-- What a text is put between depends on the outermost form of the value only. -/
theorem enclose_bare (v : Value) (text : String) : v.bare.enclose text = v.enclose text := by
  cases v <;> simp [enclose]

/-- The text of a value names no element kind. -/
@[simp]
theorem display_bare (v : Value) : v.bare.display = v.display := by
  induction v using Value.induct with
  | array element items ih =>
    have hitems : ∀ l : List Value, (∀ v ∈ l, v.bare.display = v.display) →
        displayItems (l.map bare) = displayItems l := by
      intro l hl
      induction l with
      | nil => rfl
      | cons item rest ihl =>
        have hitem := hl item List.mem_cons_self
        have hrest := ihl fun v hv => hl v (List.mem_cons_of_mem _ hv)
        cases rest with
        | nil => simp only [List.map_cons, List.map_nil, displayItems, enclose_bare, hitem]
        | cons next rest =>
          simp only [List.map_cons] at hrest ⊢
          simp only [displayItems, enclose_bare, hitem, hrest]
    rw [bare_array, display, display, hitems items ih]
  | map element entries ih =>
    have hentries : ∀ l : List (String × Value), (∀ p ∈ l, p.2.bare.display = p.2.display) →
        displayEntries (l.map fun p => (p.1, p.2.bare)) = displayEntries l := by
      intro l hl
      induction l with
      | nil => rfl
      | cons p rest ihl =>
        obtain ⟨key, value⟩ := p
        have hvalue := hl _ List.mem_cons_self
        have hrest := ihl fun p hp => hl p (List.mem_cons_of_mem _ hp)
        simp only at hvalue
        cases rest with
        | nil => simp only [List.map_cons, List.map_nil, displayEntries, enclose_bare, hvalue]
        | cons next rest =>
          obtain ⟨nextKey, nextValue⟩ := next
          simp only [List.map_cons] at hrest ⊢
          simp only [displayEntries, enclose_bare, hvalue, hrest]
    rw [bare_map, display, display, hentries entries ih]
  | _ => simp

/-- Keys of maps are texts of values, so entries are found alike. -/
@[simp]
theorem key_bare (v : Value) : v.bare.key = v.key := display_bare v

/-- Equality looks at contents only. -/
@[simp]
theorem same_bare (a b : Value) : a.bare.same b.bare = a.same b := by
  induction a using Value.induct generalizing b with
  | array element items ih =>
    have hitems : ∀ l m : List Value, (∀ v ∈ l, ∀ w, v.bare.same (bare w) = v.same w) →
        sameItems (l.map bare) (m.map bare) = sameItems l m := by
      intro l
      induction l with
      | nil =>
        intro m _
        cases m <;> simp [sameItems]
      | cons v rest ihl =>
        intro m hl
        cases m with
        | nil => simp [sameItems]
        | cons w m =>
          have hrest := ihl m fun v hv => hl v (List.mem_cons_of_mem _ hv)
          simp only [List.map_cons, sameItems, hl v List.mem_cons_self, hrest]
    cases b with
    | array element' items' => simp only [bare_array, same, hitems items items' ih]
    | _ => simp [same]
  | map element entries ih =>
    have hentries : ∀ l m : List (String × Value),
        (∀ p ∈ l, ∀ w, p.2.bare.same (bare w) = p.2.same w) →
        sameEntries (l.map fun p => (p.1, p.2.bare)) (m.map fun p => (p.1, p.2.bare)) =
          sameEntries l m := by
      intro l
      induction l with
      | nil =>
        intro m _
        cases m <;> simp [sameEntries]
      | cons p rest ihl =>
        intro m hl
        cases m with
        | nil => simp [sameEntries]
        | cons q m =>
          have hrest := ihl m fun v hv => hl v (List.mem_cons_of_mem _ hv)
          have hhead := hl p List.mem_cons_self
          simp only [List.map_cons, sameEntries, hhead, hrest]
    cases b with
    | map element' entries' => simp only [bare_map, same, hentries entries entries' ih]
    | _ => simp [same]
  | _ => cases b <;> simp [same]

/-- Only scalars are ordered, and those are bare. -/
theorem order_bare {a b : Value} {o : Ordering} (h : a.order b = .ok o) :
    a.bare.order b.bare = .ok o := by
  cases a <;> cases b <;> first | exact h | cases h

/-- A relation that holds or fails to hold of two values does so of their bare forms. -/
theorem relation_bare {op : Relation} {a b : Value} {holds : Bool} (h : op.apply a b = .ok holds) :
    op.apply a.bare b.bare = .ok holds := by
  have horder : ∀ f : Ordering → Bool, (a.order b).map f = .ok holds →
      (a.bare.order b.bare).map f = .ok holds := by
    intro f hf
    cases ho : a.order b with
    | error fault =>
      rw [ho] at hf
      cases hf
    | ok o =>
      rw [ho] at hf
      rw [order_bare ho]
      exact hf
  cases op with
  | equal => simpa [Relation.apply] using h
  | notEqual => simpa [Relation.apply] using h
  | greater => exact horder _ h
  | greaterEqual => exact horder _ h
  | less => exact horder _ h
  | lessEqual => exact horder _ h

/-- A size counts what is in the value, whatever its kind. -/
theorem size_bare {v : Value} {n : Nat} (h : v.size = .ok n) : v.bare.size = .ok n := by
  cases v <;> simp_all [size]

/-! ## Containers -/

/-- Lookup finds its entry by the key, before it looks at any value. -/
theorem get?_entries_bare (key : String) (entries : List (String × Value)) :
    Entries.get? key (entries.map fun p => (p.1, p.2.bare)) =
      (Entries.get? key entries).map bare := by
  induction entries with
  | nil => rfl
  | cons p rest ih =>
    obtain ⟨k, v⟩ := p
    simp only [List.map_cons, Entries.get?]
    by_cases hk : key = k
    · rw [if_pos hk, if_pos hk, Option.map_some]
    · rw [if_neg hk, if_neg hk, ih]

/-- So does insertion, which places by keys only. -/
theorem insert_entries_bare (key : String) (value : Value) (entries : List (String × Value)) :
    (Entries.insert key value entries).map (fun p => (p.1, p.2.bare)) =
      Entries.insert key value.bare (entries.map fun p => (p.1, p.2.bare)) := by
  induction entries with
  | nil => rfl
  | cons p rest ih =>
    obtain ⟨k, v⟩ := p
    simp only [List.map_cons, Entries.insert]
    by_cases hk : key = k
    · rw [if_pos hk, if_pos hk, List.map_cons]
    · rw [if_neg hk, if_neg hk]
      by_cases hlt : key < k
      · rw [if_pos hlt, if_pos hlt, List.map_cons, List.map_cons]
      · rw [if_neg hlt, if_neg hlt, List.map_cons, ih]

/-- The item comes out bare. -/
theorem getItem_bare {a v : Value} {index : Decimal} (h : a.getItem index = .ok v) :
    a.bare.getItem index = .ok v.bare := by
  obtain ⟨element, items, i, rfl, hi, hv⟩ := getItem_eq_ok_iff.1 h
  refine getItem_eq_ok_iff.2 ⟨.any, items.map bare, i, bare_array _ _, ?_, ?_⟩
  · rw [List.length_map, hi]
  · rw [List.getElem?_map, hv, Option.map_some]

/-- The entry comes out bare. -/
theorem getEntry_bare {m v : Value} {key : String} (h : m.getEntry key = .ok v) :
    m.bare.getEntry key = .ok v.bare := by
  obtain ⟨element, entries, rfl, hv⟩ := getEntry_eq_ok_iff.1 h
  refine getEntry_eq_ok_iff.2 ⟨.any, _, bare_map _ _, ?_⟩
  rw [get?_entries_bare, hv, Option.map_some]

/-- An element kind that is `any` already stays so. -/
theorem setEntry_bare {m v new : Value} {key : String} (h : m.setEntry key v = .ok new) :
    m.bare.setEntry key v.bare = .ok new.bare := by
  obtain ⟨element, entries, rfl, rfl⟩ := setEntry_eq_ok_iff.1 h
  refine setEntry_eq_ok_iff.2 ⟨.any, _, bare_map _ _, ?_⟩
  rw [bare_map, insert_entries_bare]
  rfl

end Value

/-- A printed line is made of texts, so output never tells element kinds apart. -/
theorem printedLine_bare (values : List Value) :
    printedLine (values.map Value.bare) = printedLine values := by
  simp only [printedLine, List.map_map]
  have h : Value.display ∘ Value.bare = Value.display := funext fun v => Value.display_bare v
  rw [h]

end LineScript
