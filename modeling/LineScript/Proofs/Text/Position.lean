import LineScript.Text.Lines

/-!
# Lines and positions

The position of a byte offset is that of one of the lines of the text: so many lines stand in front
of it, and the column counts the bytes from its start (`Lines.locate_position`). The walk over the
text knows the characters of the line that it is in, and they are what its lemma is generalized
over.
-/

set_option autoImplicit false

namespace LineScript

theorem splitAtEach_append {separator : Char} {head : List Char} (h : separator ∉ head)
    (rest : List Char) :
    splitAtEach separator (head ++ separator :: rest) = head :: splitAtEach separator rest := by
  induction head with
  | nil => rw [List.nil_append, splitAtEach, if_pos rfl]
  | cons c head ih =>
    obtain ⟨hc, hhead⟩ := not_or.1 (mt List.mem_cons.2 h)
    rw [List.cons_append, splitAtEach, if_neg (Ne.symm hc), ih hhead]

theorem splitAtEach_of_notMem {separator : Char} {text : List Char} (h : separator ∉ text) :
    splitAtEach separator text = [text] := by
  induction text with
  | nil => rfl
  | cons c text ih =>
    obtain ⟨hc, htext⟩ := not_or.1 (mt List.mem_cons.2 h)
    rw [splitAtEach, if_neg (Ne.symm hc), ih htext]

/-- A piece has only characters of the text. -/
theorem subset_of_mem_splitAtEach {separator : Char} {text piece : List Char}
    (h : piece ∈ splitAtEach separator text) : piece ⊆ text := by
  induction text generalizing piece with
  | nil =>
    obtain rfl := List.mem_singleton.1 h
    exact List.nil_subset _
  | cons c rest ih =>
    rw [splitAtEach] at h
    split at h
    · rcases List.mem_cons.1 h with rfl | h
      · exact List.nil_subset _
      · exact List.subset_cons_of_subset c (ih h)
    · split at h
      · obtain rfl := List.mem_singleton.1 h
        exact List.cons_subset_cons c (List.nil_subset rest)
      · rename_i first pieces hpieces
        rw [hpieces] at ih
        rcases List.mem_cons.1 h with rfl | h
        · exact List.cons_subset_cons c (ih List.mem_cons_self)
        · exact List.subset_cons_of_subset c (ih (List.mem_cons_of_mem _ h))

/-- Text in front of the first separator belongs to the first piece. -/
theorem splitAtEach_prepend {separator : Char} {head text first : List Char}
    {pieces : List (List Char)} (h : separator ∉ head)
    (htext : splitAtEach separator text = first :: pieces) :
    splitAtEach separator (head ++ text) = (head ++ first) :: pieces := by
  induction head with
  | nil => exact htext
  | cons c head ih =>
    obtain ⟨hc, hhead⟩ := not_or.1 (mt List.mem_cons.2 h)
    rw [List.cons_append, splitAtEach, if_neg (Ne.symm hc), ih hhead]
    rfl

/-- The first piece is the front of the text. -/
theorem prefix_of_splitAtEach {separator : Char} {text first : List Char}
    {pieces : List (List Char)} (h : splitAtEach separator text = first :: pieces) :
    first <+: text := by
  induction text generalizing first pieces with
  | nil =>
    obtain ⟨rfl, _⟩ := List.cons.inj h
    exact List.nil_prefix
  | cons c text ih =>
    obtain ⟨piece, others, hpieces⟩ :=
      List.exists_cons_of_ne_nil (splitAtEach_ne_nil separator text)
    rw [splitAtEach, hpieces] at h
    split at h
    · obtain ⟨rfl, _⟩ := List.cons.inj h
      exact List.nil_prefix
    · obtain ⟨rfl, _⟩ := List.cons.inj h
      exact (List.prefix_cons_inj c).2 (ih hpieces)

/-- Behind as many pieces as there are separators in a text, and one more, come the pieces of what
is behind it. -/
theorem drop_splitAtEach (separator : Char) (head rest : List Char) :
    (splitAtEach separator (head ++ separator :: rest)).drop (head.count separator + 1) =
      splitAtEach separator rest := by
  induction head with
  | nil => rw [List.nil_append, splitAtEach, if_pos rfl]; rfl
  | cons c head ih =>
    rw [List.cons_append, splitAtEach]
    by_cases hc : c = separator
    · rw [if_pos hc, hc, List.count_cons_self, List.drop_succ_cons, ih]
    · rw [if_neg hc, List.count_cons_of_ne hc]
      obtain ⟨piece, pieces, hpieces⟩ :=
        List.exists_cons_of_ne_nil (splitAtEach_ne_nil separator (head ++ separator :: rest))
      rw [← ih, hpieces]
      rfl

namespace Lines

/-- The bytes of lines with the newlines behind them. -/
def bytes : List (List Char) → Nat
  | [] => 0
  | line :: lines => byteLength line + 1 + bytes lines

/-- In a text, a position is that of an offset: it is on one of the lines, and its column counts the
bytes from the start of the line. -/
structure IsPosition (text : List Char) (offset : Nat) (before : List (List Char))
    (line : List Char) (place : Position) : Prop where
  lines : ∃ after, splitAtEach '\n' text = before ++ line :: after
  number : place.line = before.length + 1
  reached : bytes before ≤ offset
  column : bytes before + place.column = offset + 1
  /-- An offset in the text is on the line or right behind it. -/
  inside : offset ≤ byteLength text → place.column ≤ byteLength line + 1

variable {offset here line start : Nat}

theorem locateFrom_column_pos (offset here line start : Nat) (text : List Char) :
    0 < (locateFrom offset here line start text).column := by
  induction text generalizing here line start with
  | nil => exact Nat.succ_pos _
  | cons c text ih =>
    rw [locateFrom]
    split
    · exact ih _ _ _
    · exact ih _ _ _

/-- No newline at or behind the offset matters. -/
theorem locateFrom_of_le (h : offset ≤ here) (text : List Char) :
    locateFrom offset here line start text = ⟨line, offset - start + 1⟩ := by
  induction text generalizing here with
  | nil => rfl
  | cons c text ih =>
    rw [locateFrom, if_neg (by omega)]
    exact ih (by omega)

/-- The walk over a text, with `head` in front of it on the line that it is in. -/
theorem locateFrom_position (here line start : Nat) {head : List Char} (hhead : '\n' ∉ head)
    (hhere : here = start + byteLength head) (hstart : start ≤ offset) (text : List Char) :
    ∃ before current after, splitAtEach '\n' (head ++ text) = before ++ current :: after ∧
      (locateFrom offset here line start text).line = line + before.length ∧
      start + bytes before + (locateFrom offset here line start text).column = offset + 1 ∧
      (offset ≤ start + byteLength (head ++ text) →
        (locateFrom offset here line start text).column ≤ byteLength current + 1) := by
  induction text generalizing head here line start with
  | nil =>
    refine ⟨[], head, [], by rw [List.append_nil, splitAtEach_of_notMem hhead]; rfl, rfl, ?_, ?_⟩
    · simp only [locateFrom, bytes]
      omega
    · simp only [locateFrom, List.append_nil]
      omega
  | cons c text ih =>
    rw [locateFrom]
    by_cases hc : c = '\n'
    · subst hc
      have hsize : Char.utf8Size '\n' = 1 := rfl
      rw [splitAtEach_append hhead]
      by_cases hlt : here < offset
      · -- The offset is behind this newline, and the line of the walk is the next.
        obtain ⟨before, current, after, hsplit, hline, hcolumn, hinside⟩ :=
          ih (here + 1) (line + 1) (here + 1) List.not_mem_nil rfl hlt
        rw [List.nil_append] at hsplit hinside
        rw [if_pos ⟨rfl, hlt⟩, hsize]
        refine ⟨head :: before, current, after, by rw [hsplit]; rfl, ?_, ?_, fun hle => hinside ?_⟩
        · rw [hline, List.length_cons]
          omega
        · rw [← hcolumn, bytes, hhere]
          omega
        · simp only [byteLength_append, byteLength_cons] at hle
          omega
      · rw [if_neg fun h => hlt h.2, locateFrom_of_le (by omega)]
        refine ⟨[], head, _, rfl, rfl, ?_, fun _ => ?_⟩
        · simp only [bytes]
          omega
        · dsimp only
          omega
    · obtain ⟨before, current, after, hsplit, hrest⟩ :=
        ih (here + c.utf8Size) line start (by simp [hhead, Ne.symm hc] : '\n' ∉ head ++ [c])
          (by rw [hhere, byteLength_append, byteLength_cons, byteLength_nil, Nat.add_zero,
                Nat.add_assoc])
          hstart
      rw [List.append_assoc, List.singleton_append] at hsplit hrest
      rw [if_neg (by simp [hc])]
      exact ⟨before, current, after, hsplit, hrest⟩

/-- Every offset has the position of a line of the source. -/
theorem locate_position (source : String) (offset : Nat) :
    ∃ before line, IsPosition source.toList offset before line (locate source offset) := by
  obtain ⟨before, line, after, hsplit, hline, hcolumn, hinside⟩ :=
    locateFrom_position 0 1 0 List.not_mem_nil rfl (Nat.zero_le offset) source.toList
  rw [List.nil_append, Nat.zero_add] at hinside
  rw [Nat.zero_add] at hcolumn
  have hpos := locateFrom_column_pos offset 0 1 0 source.toList
  exact ⟨before, line, ⟨after, hsplit⟩, by rw [locate, hline, Nat.add_comm], by omega,
    hcolumn, hinside⟩

/-- The text of the line of a position is there to be shown. -/
theorem IsPosition.text_eq {source : String} {before : List (List Char)} {line : List Char}
    {place : Position} (h : IsPosition source.toList offset before line place) :
    text source place.line = String.ofList (trimReturns line) := by
  obtain ⟨after, hlines⟩ := h.lines
  rw [text, h.number, if_neg (Nat.succ_ne_zero _), Nat.add_sub_cancel, hlines,
    List.getElem?_append_right (Nat.le_refl _), Nat.sub_self]
  rfl

end Lines

end LineScript
