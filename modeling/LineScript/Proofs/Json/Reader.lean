import LineScript.Proofs.Json.Lexemes

/-!
# Reading JSON text

`Json.read?` reads a text as one value, and fails on everything else. It is the grammar of values
over the lexemes of the text; what a written value is read as is therefore a question about its
lexemes only (`read?_eq_some_iff`): a text is read as `j` exactly when its lexemes are those of `j`.
As both ways of writing come to these lexemes, whatever is written is read again (`read?_render`,
`read?_renderPretty`).

The bound of the recursion is the number of lexemes. No value is given up for it, since every step
into a value takes at least one lexeme.
-/

set_option autoImplicit false

namespace LineScript.Json

mutual

/-- The value at the head of the lexemes, and what is behind it. -/
def valueIn : Nat → List Lexeme → Option (Json × List Lexeme)
  | _ + 1, .null :: rest => some (.null, rest)
  | _ + 1, .bool b :: rest => some (.bool b, rest)
  | _ + 1, .number n :: rest => some (.number n, rest)
  | _ + 1, .string s :: rest => some (.string s, rest)
  | _ + 1, .openArray :: .closeArray :: rest => some (.array [], rest)
  | bound + 1, .openArray :: rest => do
    let (item, rest) ← valueIn bound rest
    let (items, rest) ← itemsIn bound rest
    some (.array (item :: items), rest)
  | _ + 1, .openObject :: .closeObject :: rest => some (.object [], rest)
  | bound + 1, .openObject :: .string name :: .colon :: rest => do
    let (value, rest) ← valueIn bound rest
    let (members, rest) ← membersIn bound rest
    some (.object ((name, value) :: members), rest)
  | _, _ => none

/-- The items after the first up to the end of an array, and what is behind it. -/
def itemsIn : Nat → List Lexeme → Option (List Json × List Lexeme)
  | _ + 1, .closeArray :: rest => some ([], rest)
  | bound + 1, .comma :: rest => do
    let (item, rest) ← valueIn bound rest
    let (items, rest) ← itemsIn bound rest
    some (item :: items, rest)
  | _, _ => none

/-- The members after the first up to the end of an object, and what is behind it. -/
def membersIn : Nat → List Lexeme → Option (List (String × Json) × List Lexeme)
  | _ + 1, .closeObject :: rest => some ([], rest)
  | bound + 1, .comma :: .string name :: .colon :: rest => do
    let (value, rest) ← valueIn bound rest
    let (members, rest) ← membersIn bound rest
    some ((name, value) :: members, rest)
  | _, _ => none

end

/-- The value that the whole text stands for. -/
def read? (text : String) : Option Json :=
  match lexemes? text.toList with
  | none => none
  | some ls =>
    match valueIn ls.length ls with
    | some (j, []) => some j
    | _ => none

variable {j : Json} {items : List Json} {members : List (String × Json)} {bound : Nat}
    {rest : List Lexeme}

/-! ## Every value is read -/

/-- A value does not begin with the end of an array. -/
theorem lexemes_ne_closeArray (j : Json) (more ls : List Lexeme) :
    j.lexemes ++ more ≠ .closeArray :: ls := by
  intro h
  unfold lexemes at h
  split at h <;> cases h

/-- The value is read off its lexemes, whatever follows them. -/
def Reads (j : Json) : Prop :=
  ∀ bound rest, j.lexemes.length ≤ bound → valueIn bound (j.lexemes ++ rest) = some (j, rest)

theorem itemsIn_lexemes (h : ∀ j ∈ items, Reads j) (bound : Nat) (rest : List Lexeme)
    (hbound : (lexemesItems items).length ≤ bound) :
    itemsIn bound (lexemesItems items ++ rest) = some (items, rest) := by
  induction items generalizing bound with
  | nil =>
    rw [lexemesItems, List.length_singleton] at hbound
    obtain ⟨m, rfl⟩ := Nat.exists_eq_add_of_le' hbound
    rw [lexemesItems, List.singleton_append, itemsIn]
  | cons item items ih =>
    rw [lexemesItems, List.length_cons, List.length_append] at hbound
    obtain ⟨m, rfl⟩ := Nat.exists_eq_add_of_le' (Nat.le_trans (Nat.le_add_left 1 _) hbound)
    have hitem := h item List.mem_cons_self m (lexemesItems items ++ rest) (by omega)
    have hitems := ih (fun j hj => h j (List.mem_cons_of_mem item hj)) m (by omega)
    rw [lexemesItems, List.cons_append, List.append_assoc, itemsIn, hitem]
    simp only [Option.bind_eq_bind, Option.bind_some, hitems]

theorem membersIn_lexemes (h : ∀ m ∈ members, Reads m.2) (bound : Nat) (rest : List Lexeme)
    (hbound : (lexemesMembers members).length ≤ bound) :
    membersIn bound (lexemesMembers members ++ rest) = some (members, rest) := by
  induction members generalizing bound with
  | nil =>
    rw [lexemesMembers, List.length_singleton] at hbound
    obtain ⟨m, rfl⟩ := Nat.exists_eq_add_of_le' hbound
    rw [lexemesMembers, List.singleton_append, membersIn]
  | cons member members ih =>
    rw [lexemesMembers, List.length_cons, List.length_cons, List.length_cons,
      List.length_append] at hbound
    obtain ⟨m, rfl⟩ := Nat.exists_eq_add_of_le' (Nat.le_trans (Nat.le_add_left 1 _) hbound)
    have hmember := h member List.mem_cons_self m (lexemesMembers members ++ rest) (by omega)
    have hmembers := ih (fun j hj => h j (List.mem_cons_of_mem member hj)) m (by omega)
    rw [lexemesMembers, List.cons_append, List.cons_append, List.cons_append, List.append_assoc,
      membersIn, hmember]
    simp only [Option.bind_eq_bind, Option.bind_some, hmembers]

/-- There is a lexeme to begin with, so a bound of zero need not be looked at. -/
theorem reads_of_succ (h : ∀ m rest, j.lexemes.length ≤ m + 1 →
    valueIn (m + 1) (j.lexemes ++ rest) = some (j, rest)) : Reads j := by
  intro bound rest hbound
  have hpos : 0 < j.lexemes.length := by
    unfold lexemes
    split <;> exact Nat.zero_lt_succ _
  obtain ⟨m, rfl⟩ := Nat.exists_eq_add_of_le' (Nat.le_trans hpos hbound)
  exact h m rest hbound

/-- Every value is read off its lexemes. -/
theorem reads (j : Json) : Reads j := by
  induction j using induct with
  | null => exact reads_of_succ fun m rest _ => by rw [lexemes, List.singleton_append, valueIn]
  | bool b => exact reads_of_succ fun m rest _ => by rw [lexemes, List.singleton_append, valueIn]
  | number n => exact reads_of_succ fun m rest _ => by rw [lexemes, List.singleton_append, valueIn]
  | string s => exact reads_of_succ fun m rest _ => by rw [lexemes, List.singleton_append, valueIn]
  | array items ih =>
    apply reads_of_succ
    intro m rest hbound
    cases items with
    | nil => rw [lexemes, List.cons_append, List.singleton_append, valueIn]
    | cons item items =>
      rw [lexemes, List.length_cons, List.length_append] at hbound
      have hitem := ih item List.mem_cons_self m (lexemesItems items ++ rest) (by omega)
      have hitems :=
        itemsIn_lexemes (fun j hj => ih j (List.mem_cons_of_mem item hj)) m rest (by omega)
      rw [lexemes, List.cons_append, List.append_assoc, valueIn, hitem]
      · simp only [Option.bind_eq_bind, Option.bind_some, hitems]
      · -- What begins the first item does not end the array.
        intro ls hclose
        exact lexemes_ne_closeArray item _ ls hclose
  | object members ih =>
    apply reads_of_succ
    intro m rest hbound
    cases members with
    | nil => rw [lexemes, List.cons_append, List.singleton_append, valueIn]
    | cons member members =>
      rw [lexemes, List.length_cons, List.length_cons, List.length_cons,
        List.length_append] at hbound
      have hmember := ih member List.mem_cons_self m (lexemesMembers members ++ rest) (by omega)
      have hmembers :=
        membersIn_lexemes (fun j hj => ih j (List.mem_cons_of_mem member hj)) m rest (by omega)
      rw [lexemes, List.cons_append, List.cons_append, List.cons_append, List.append_assoc,
        valueIn, hmember]
      simp only [Option.bind_eq_bind, Option.bind_some, hmembers]

/-! ## Nothing else is read -/

/-- Under a bound, what is read has its lexemes in front. -/
structure Sound (bound : Nat) : Prop where
  value : ∀ {ls j rest}, valueIn bound ls = some (j, rest) → ls = j.lexemes ++ rest
  items : ∀ {ls items rest}, itemsIn bound ls = some (items, rest) → ls = lexemesItems items ++ rest
  members :
      ∀ {ls members rest}, membersIn bound ls = some (members, rest) →
        ls = lexemesMembers members ++ rest

variable {ls : List Lexeme}

theorem sound_value (ih : Sound bound) (h : valueIn (bound + 1) ls = some (j, rest)) :
    ls = j.lexemes ++ rest := by
  unfold valueIn at h
  -- One case for each line of the function. Two of them read on, with the smaller bound.
  split at h
  · cases h
    rw [lexemes, List.singleton_append]
  · cases h
    rw [lexemes, List.singleton_append]
  · cases h
    rw [lexemes, List.singleton_append]
  · cases h
    rw [lexemes, List.singleton_append]
  · cases h
    rw [lexemes, List.cons_append, List.singleton_append]
  · rename_i heq
    cases heq
    obtain ⟨⟨item, behind⟩, hitem, h⟩ := Option.bind_eq_some_iff.1 h
    obtain ⟨⟨items, _⟩, hitems, h⟩ := Option.bind_eq_some_iff.1 h
    cases h
    rw [ih.value hitem, ih.items hitems, lexemes, List.cons_append, List.append_assoc]
  · cases h
    rw [lexemes, List.cons_append, List.singleton_append]
  · rename_i heq
    cases heq
    obtain ⟨⟨value, behind⟩, hvalue, h⟩ := Option.bind_eq_some_iff.1 h
    obtain ⟨⟨members, _⟩, hmembers, h⟩ := Option.bind_eq_some_iff.1 h
    cases h
    rw [ih.value hvalue, ih.members hmembers, lexemes, List.cons_append, List.cons_append,
      List.cons_append, List.append_assoc]
  · cases h

theorem sound_items (ih : Sound bound) (h : itemsIn (bound + 1) ls = some (items, rest)) :
    ls = lexemesItems items ++ rest := by
  unfold itemsIn at h
  split at h
  · cases h
    rw [lexemesItems, List.singleton_append]
  · rename_i heq
    cases heq
    obtain ⟨⟨item, behind⟩, hitem, h⟩ := Option.bind_eq_some_iff.1 h
    obtain ⟨⟨items, _⟩, hitems, h⟩ := Option.bind_eq_some_iff.1 h
    cases h
    rw [ih.value hitem, ih.items hitems, lexemesItems, List.cons_append, List.append_assoc]
  · cases h

theorem sound_members (ih : Sound bound) (h : membersIn (bound + 1) ls = some (members, rest)) :
    ls = lexemesMembers members ++ rest := by
  unfold membersIn at h
  split at h
  · cases h
    rw [lexemesMembers, List.singleton_append]
  · rename_i heq
    cases heq
    obtain ⟨⟨value, behind⟩, hvalue, h⟩ := Option.bind_eq_some_iff.1 h
    obtain ⟨⟨members, _⟩, hmembers, h⟩ := Option.bind_eq_some_iff.1 h
    cases h
    rw [ih.value hvalue, ih.members hmembers, lexemesMembers, List.cons_append, List.cons_append,
      List.cons_append, List.append_assoc]
  · cases h

theorem sound (bound : Nat) : Sound bound := by
  induction bound with
  | zero =>
    refine ⟨?_, ?_, ?_⟩
    all_goals
      intro ls a rest h
      cases h
  | succ bound ih => exact ⟨sound_value ih, sound_items ih, sound_members ih⟩

/-- A text is read as a value exactly if it falls into the lexemes of that value. -/
theorem read?_eq_some_iff {text : String} :
    read? text = some j ↔ lexemes? text.toList = some j.lexemes := by
  constructor
  · intro h
    rw [read?] at h
    split at h
    · cases h
    · rename_i ls hls
      split at h
      · rename_i value hvalue
        cases h
        rw [hls, (sound _).value hvalue, List.append_nil]
      · cases h
  · intro h
    have hreads := reads j j.lexemes.length [] (Nat.le_refl _)
    rw [List.append_nil] at hreads
    rw [read?, h]
    dsimp only
    rw [hreads]

/-- Blanks and the choice of an escape make no difference. -/
example :
    read? "[ 10, \x22\\u00e9\\n\x22,null ]" = some (.array [.number 10, .string "é\n", .null]) := by
  cbv

/-- No item behind a comma. -/
example : read? "[1,]" = none := by cbv

/-! ## Written values are read again -/

/-- A text is read as the value whose lexemes it is cut into. -/
theorem read?_of_cuts {text : List Char} (h : Cuts text j.lexemes) {blanks : List Char}
    (hblanks : Blanks blanks) : read? (String.ofList (text ++ blanks)) = some j := by
  have hend := hblanks.noDigit noDigit_nil
  have hnone := lexemes?_blanks hblanks []
  rw [List.append_nil] at hend hnone
  rw [read?_eq_some_iff, String.toList_ofList, h blanks hend, hnone, lexemes?_nil, Option.map_some,
    List.append_nil]

/-- Each of several values is read. -/
theorem mapM_written {α β : Type} {read : Json → Option β} {write : α → Json} {g : α → β}
    {xs : List α} (h : ∀ x ∈ xs, read (write x) = some (g x)) :
    (xs.map write).mapM read = some (xs.map g) := by
  induction xs with
  | nil => rfl
  | cons x xs ih =>
    rw [List.map_cons, List.mapM_cons, h x List.mem_cons_self,
      ih fun y hy => h y (List.mem_cons_of_mem x hy)]
    rfl

theorem read?_render (j : Json) : read? j.render = some j := by
  have h := read?_of_cuts (cuts_compact j) blanks_nil
  rwa [List.append_nil] at h

theorem read?_renderPretty (j : Json) : read? (j.renderPretty ++ "\n") = some j := by
  have h := read?_of_cuts (cuts_pretty 0 j) (blanks_one (c := '\n') rfl)
  rwa [String.ofList_append] at h

end LineScript.Json
