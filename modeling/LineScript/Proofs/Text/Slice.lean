import LineScript.Text.Span
import Mathlib.Data.String.Basic

/-!
# Slices of a source text

Spans count bytes, and the scanner counts the bytes of the characters that it has read. Both are
positions of the library's strings: a span of the bytes of some characters behind some others covers
exactly these characters (`Span.slice_eq`), and its ends are valid positions (`Span.within_eq`). A
valid position divides the text (`Span.exists_append_of_isValid`).
-/

set_option autoImplicit false

namespace LineScript

/-- Bytes are counted as the library counts them for a list of characters, so its lemmas about valid
positions apply. -/
theorem byteLength_eq_utf8Len (text : List Char) : byteLength text = String.utf8Len text := by
  induction text with
  | nil => rfl
  | cons c rest ih => rw [byteLength_cons, String.utf8Len_cons, ih, Nat.add_comm]

/-- The bytes of all characters of a source are the size of the source, where the last position is.
-/
theorem byteLength_toList (source : String) : byteLength source.toList = source.utf8ByteSize := by
  rw [byteLength_eq_utf8Len, String.utf8Len_toList]

/-- Only the empty text takes no bytes: whatever is scanned moves the scanner on. -/
theorem byteLength_pos {text : List Char} (h : text ≠ []) : 0 < byteLength text := by
  obtain ⟨c, rest, rfl⟩ := List.exists_cons_of_ne_nil h
  rw [byteLength_cons]
  exact Nat.add_pos_left c.utf8Size_pos _

/-- A text has at most as many characters as bytes. -/
theorem length_le_byteLength (text : List Char) : text.length ≤ byteLength text := by
  induction text with
  | nil => exact Nat.le_refl _
  | cons c rest ih =>
    have hpos := c.utf8Size_pos
    rw [List.length_cons, byteLength_cons]
    omega

/-- A text has as many bytes as characters exactly if every character takes one. -/
theorem byteLength_eq_length_iff {text : List Char} :
    byteLength text = text.length ↔ ∀ c ∈ text, c.utf8Size = 1 := by
  induction text with
  | nil => simp
  | cons c rest ih =>
    have hpos := c.utf8Size_pos
    have hrest := length_le_byteLength rest
    rw [List.forall_mem_cons, ← ih, byteLength_cons, List.length_cons]
    omega

/-- The form in which two cuts of a text at one offset are told to be the same. -/
theorem eq_nil_of_byteLength {text : List Char} (h : byteLength text = 0) : text = [] := by
  by_contra hne
  exact absurd h (Nat.ne_of_gt (byteLength_pos hne))

/-- Of two ways to divide a text, the one with the shorter front divides the front of the other. -/
theorem append_eq_append_of_byteLength {a b c d : List Char} (h : a ++ b = c ++ d)
    (hle : byteLength a ≤ byteLength c) : ∃ between, c = a ++ between ∧ b = between ++ d := by
  rcases List.append_eq_append_iff.1 h with hsplit | ⟨more, ha, hd⟩
  · exact hsplit
  · have hmore : byteLength more = 0 := by
      rw [ha, byteLength_append] at hle
      omega
    obtain rfl := eq_nil_of_byteLength hmore
    exact ⟨[], by rw [ha, List.append_nil, List.append_nil], hd.symm⟩

namespace Span

variable {source : String} {front taken back : List Char} {a b : Span}

/-- A span in a source that starts and ends between its characters. -/
structure Within (s : Span) (source : String) : Prop where
  ordered : s.start ≤ s.stop
  start : (⟨s.start⟩ : String.Pos.Raw).IsValid source
  stop : (⟨s.stop⟩ : String.Pos.Raw).IsValid source

/-- What a span covers, for a source that is given as three parts. All slices of tokens and of lines
are found with this. -/
theorem slice_eq (h : source.toList = front ++ taken ++ back) :
    (⟨byteLength front, byteLength front + byteLength taken⟩ : Span).slice source =
      String.ofList taken := by
  have hsource : source = String.ofList (front ++ taken ++ back) := by
    rw [← h, String.ofList_toList]
  rw [slice, hsource, byteLength_eq_utf8Len, byteLength_eq_utf8Len]
  exact String.extract_of_valid front taken back

/-- The offset behind some characters of a source lies between two characters. -/
theorem isValid_byteLength (h : source.toList = front ++ back) :
    (⟨byteLength front⟩ : String.Pos.Raw).IsValid source := by
  refine String.Pos.Raw.isValid_iff_exists_append.2
    ⟨String.ofList front, String.ofList back, ?_, ?_⟩
  · rw [← String.ofList_append, ← h, String.ofList_toList]
  · rw [String.rawEndPos_ofList, byteLength_eq_utf8Len]

/-- Every offset between two characters divides the source, which turns a statement about offsets
into one about parts. -/
theorem exists_append_of_isValid {source : String} {position : Nat}
    (h : (⟨position⟩ : String.Pos.Raw).IsValid source) :
    ∃ front back, source.toList = front ++ back ∧ byteLength front = position := by
  obtain ⟨front, back, rfl, hend⟩ := String.Pos.Raw.isValid_iff_exists_append.1 h
  refine ⟨front.toList, back.toList, String.toList_append, ?_⟩
  rw [byteLength_toList]
  exact (congrArg String.Pos.Raw.byteIdx hend).symm

/-- Any part of a source is the part of a span that starts and ends between characters. -/
theorem within_eq (h : source.toList = front ++ taken ++ back) :
    (⟨byteLength front, byteLength front + byteLength taken⟩ : Span).Within source where
  ordered := Nat.le_add_right _ _
  start := isValid_byteLength (by rw [h, List.append_assoc])
  stop := by
    rw [← byteLength_append]
    exact isValid_byteLength h

/-- A span between two characters can be cut out. -/
theorem Within.cut?_eq (h : a.Within source) : a.cut? source = some (a.slice source) :=
  if_pos ⟨h.ordered, h.start, h.stop⟩

/-- The end of a source is a place in it. -/
theorem within_end (source : String) : (Span.point source.utf8ByteSize).Within source := by
  have hend : (⟨source.utf8ByteSize⟩ : String.Pos.Raw).IsValid source := by
    rw [← byteLength_toList]
    exact isValid_byteLength (List.append_nil _).symm
  exact ⟨Nat.le_refl _, hend, hend⟩

/-- No place lies behind the end of the source. -/
theorem Within.le (h : a.Within source) : a.stop ≤ source.utf8ByteSize := h.stop.le_rawEndPos

/-- The place right behind another one, as an end of file in an error has it. -/
theorem Within.point (h : a.Within source) : (Span.point a.stop).Within source :=
  ⟨Nat.le_refl _, h.stop, h.stop⟩

/-- The smallest span around two is made of their own ends, so it cuts no character either. -/
theorem Within.merge (ha : a.Within source) (hb : b.Within source) : (a.merge b).Within source := by
  have hordered := ha.ordered
  refine ⟨by simp only [Span.merge]; omega, ?_, ?_⟩
  · simp only [Span.merge]
    rcases Nat.le_total a.start b.start with hle | hle
    · rw [Nat.min_eq_left hle]
      exact ha.start
    · rw [Nat.min_eq_right hle]
      exact hb.start
  · simp only [Span.merge]
    rcases Nat.le_total a.stop b.stop with hle | hle
    · rw [Nat.max_eq_right hle]
      exact hb.stop
    · rw [Nat.max_eq_left hle]
      exact ha.stop

end Span

end LineScript
