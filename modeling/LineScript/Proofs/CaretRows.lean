import LineScript.Proofs.LinePositions
import LineScript.Report.Render

/-!
# Carets below the printed line

Below the line of a label stands a row of carets. It is laid out in bytes: the first caret has as
many characters in front of it as the label has bytes in front of it on the line, and there are as
many carets as the label has bytes on the line (`Diagnostic.carets_count_bytes`). Rows are read by
characters, so the carets point at the label (`Label.PointedAt`) exactly if no character up to the
end of the label has more than one byte.

What of a printed line comes before a label and what belongs to it is told by the offsets of its
characters (`Lines.charactersAt`), whatever the layout does. A label whose ends are between
characters divides its line between characters, and the three parts take as many bytes as the
offsets say (`Label.Shown.parts`). The rows are found by cutting the report at its newlines, since
messages may have newlines of their own (`Diagnostic.rowsBelow_eq`).
-/

set_option autoImplicit false

namespace LineScript

/-! ## Parts of a printed line -/

namespace Lines

/-- The characters of a text, of which the first is at byte `here`, that start at the wanted
offsets. -/
def charactersAt (wanted : Nat → Bool) (here : Nat) : List Char → List Char
  | [] => []
  | c :: rest =>
    if wanted here then c :: charactersAt wanted (here + c.utf8Size) rest
    else charactersAt wanted (here + c.utf8Size) rest

variable {wanted : Nat → Bool} {here : Nat} {text : List Char}

theorem charactersAt_append (wanted : Nat → Bool) (here : Nat) (front back : List Char) :
    charactersAt wanted here (front ++ back) =
      charactersAt wanted here front ++ charactersAt wanted (here + byteLength front) back := by
  induction front generalizing here with
  | nil => rfl
  | cons c front ih =>
    rw [List.cons_append, charactersAt, charactersAt, ih, byteLength_cons, Nat.add_assoc]
    split <;> rfl

theorem charactersAt_of_forall
    (h : ∀ offset, here ≤ offset → offset < here + byteLength text → wanted offset = true) :
    charactersAt wanted here text = text := by
  induction text generalizing here with
  | nil => rfl
  | cons c text ih =>
    have hpos := c.utf8Size_pos
    rw [byteLength_cons] at h
    rw [charactersAt, if_pos (h here (Nat.le_refl _) (by omega)),
      ih fun offset hle hlt => h offset (by omega) (by omega)]

theorem charactersAt_eq_nil
    (h : ∀ offset, here ≤ offset → offset < here + byteLength text → wanted offset = false) :
    charactersAt wanted here text = [] := by
  induction text generalizing here with
  | nil => rfl
  | cons c text ih =>
    have hpos := c.utf8Size_pos
    rw [byteLength_cons] at h
    rw [charactersAt, h here (Nat.le_refl _) (by omega), if_neg Bool.false_ne_true,
      ih fun offset hle hlt => h offset (by omega) (by omega)]

/-- Of a text in three parts the one in the middle, if no other offsets are wanted. -/
theorem charactersAt_middle {left middle right : List Char}
    (hleft : ∀ offset, here ≤ offset → offset < here + byteLength left → wanted offset = false)
    (hmiddle : ∀ offset, here + byteLength left ≤ offset →
      offset < here + byteLength (left ++ middle) → wanted offset = true)
    (hright : ∀ offset, here + byteLength (left ++ middle) ≤ offset →
      offset < here + byteLength (left ++ middle ++ right) → wanted offset = false) :
    charactersAt wanted here (left ++ middle ++ right) = middle := by
  rw [byteLength_append, ← Nat.add_assoc] at hmiddle
  rw [byteLength_append (left ++ middle), ← Nat.add_assoc] at hright
  rw [charactersAt_append, charactersAt_append, charactersAt_eq_nil hleft,
    charactersAt_of_forall hmiddle, charactersAt_eq_nil hright, List.nil_append, List.append_nil]

end Lines

namespace Label

/-- The number of the line that a label starts on. -/
def line (label : Label) (source : String) : Nat := (Lines.locate source label.span.start).line

/-- What is printed of this line. -/
def printed (label : Label) (source : String) : List Char :=
  (Lines.text source (label.line source)).toList

/-- The offset at which this line starts. -/
def lineStart (label : Label) (source : String) : Nat :=
  ((Lines.starts source)[label.line source - 1]?).getD 0

/-- The offset at which the printed text of this line ends. -/
def lineStop (label : Label) (source : String) : Nat :=
  label.lineStart source + byteLength (label.printed source)

/-- The printed characters in front of the label. -/
def before (label : Label) (source : String) : List Char :=
  Lines.charactersAt (· < label.span.start) (label.lineStart source) (label.printed source)

/-- The printed characters of the label. -/
def marked (label : Label) (source : String) : List Char :=
  Lines.charactersAt (fun offset => label.span.start ≤ offset && offset < label.span.stop)
    (label.lineStart source) (label.printed source)

/-- The ends of a label are between characters of the source, and it starts in the printed text of
its line or right behind it. -/
structure Shown (label : Label) (source : String) : Prop where
  start : (⟨label.span.start⟩ : String.Pos.Raw).IsValid source
  stop : (⟨label.span.stop⟩ : String.Pos.Raw).IsValid source
  le : label.span.start ≤ label.lineStop source

variable {label : Label} {source : String} {offset : Nat}

theorem starts_line (label : Label) (source : String) :
    (Lines.starts source)[label.line source - 1]? = some (label.lineStart source) ∧
      0 < label.line source ∧ label.lineStart source ≤ label.span.start ∧
      (Lines.locate source label.span.start).column =
        label.span.start - label.lineStart source + 1 := by
  obtain ⟨s, hs, hle, hlocate⟩ := Lines.locate_eq source label.span.start
  have hline : label.line source = Lines.newlinesBefore source label.span.start + 1 := by
    rw [line, hlocate]
  have hstart : label.lineStart source = s := by
    rw [lineStart, hline, Nat.add_sub_cancel, hs, Option.getD_some]
  rw [hstart, hline, Nat.add_sub_cancel]
  exact ⟨hs, Nat.succ_pos _, hle, by rw [hlocate]⟩

/-- The printed line is a part of the source, and is one line. -/
theorem printed_in_source (label : Label) (source : String) :
    (∃ front back, source.toList = front ++ label.printed source ++ back ∧
      byteLength front = label.lineStart source) ∧ '\n' ∉ label.printed source := by
  obtain ⟨hstart, hpos, _, _⟩ := label.starts_line source
  obtain ⟨front, text, back, hsource, hfree, hfront, hsplit, _⟩ := Lines.line_of_starts hstart
  obtain ⟨returns, hreturns⟩ := Lines.trimReturns_append text
  have hprinted : label.printed source = Lines.trimReturns text := by
    rw [printed, Lines.text, if_neg (Nat.ne_of_gt hpos), hsplit, Option.getD_some,
      String.toList_ofList]
  rw [hprinted]
  refine ⟨⟨front, List.replicate returns '\r' ++ back, ?_, ?_⟩, ?_⟩
  · rw [hsource, List.append_assoc, List.append_assoc,
      ← List.append_assoc (Lines.trimReturns text), hreturns]
  · rw [hfront, Nat.zero_add]
  · intro hmem
    exact hfree (hreturns ▸ List.mem_append_left _ hmem)

/-- A place between characters that is on the printed line divides it between characters. -/
theorem printed_divided (hvalid : (⟨offset⟩ : String.Pos.Raw).IsValid source)
    (hstart : label.lineStart source ≤ offset) (hstop : offset ≤ label.lineStop source) :
    ∃ left right, label.printed source = left ++ right ∧
      label.lineStart source + byteLength left = offset := by
  obtain ⟨⟨front, back, hsource, hfront⟩, _⟩ := label.printed_in_source source
  obtain ⟨left, right, hcut, hleft⟩ := Span.exists_append_of_isValid hvalid
  rw [lineStop] at hstop
  rw [hsource, List.append_assoc] at hcut
  obtain ⟨between, rfl, hbetween⟩ := append_eq_append_of_byteLength hcut (by omega)
  rw [byteLength_append] at hleft
  obtain ⟨rest, hprinted, _⟩ := append_eq_append_of_byteLength hbetween.symm (by omega)
  exact ⟨between, rest, hprinted, by omega⟩

/-- The label ends where its span does, with the line, or where it starts, whichever is on the
line. -/
theorem Shown.exists_parts (h : label.Shown source) : ∃ left middle right,
    label.printed source = left ++ middle ++ right ∧
    label.lineStart source + byteLength left = label.span.start ∧
    label.lineStart source + byteLength (left ++ middle) =
      max label.span.start (min label.span.stop (label.lineStop source)) := by
  obtain ⟨_, _, hstart, _⟩ := label.starts_line source
  have hle := h.le
  obtain ⟨left, rest, hleft, hleftStop⟩ := printed_divided h.start hstart hle
  rcases Nat.le_total label.span.stop label.span.start with hempty | hordered
  · refine ⟨left, [], rest, by rw [List.append_nil, hleft], hleftStop, ?_⟩
    rw [List.append_nil]
    omega
  · rcases Nat.le_total label.span.stop (label.lineStop source) with hinside | hbehind
    · obtain ⟨upTo, right, hupTo, hupToStop⟩ :=
        printed_divided h.stop (hstart.trans hordered) hinside
      obtain ⟨middle, rfl, _⟩ := append_eq_append_of_byteLength (hleft.symm.trans hupTo) (by omega)
      exact ⟨left, middle, right, hupTo, hleftStop, by omega⟩
    · refine ⟨left, rest, [], by rw [List.append_nil, hleft], hleftStop, ?_⟩
      rw [lineStop, hleft] at hle hbehind ⊢
      omega

/-- The printed line of a label is what is in front of it, what of it is on the line, and what is
behind. -/
theorem Shown.parts (h : label.Shown source) : ∃ after,
    label.printed source = label.before source ++ label.marked source ++ after ∧
    label.lineStart source + byteLength (label.before source) = label.span.start ∧
    label.span.start + byteLength (label.marked source) =
      max label.span.start (min label.span.stop (label.lineStop source)) := by
  obtain ⟨left, middle, right, hprinted, hleft, hmiddle⟩ := h.exists_parts
  have hlineStop : label.lineStop source =
      label.lineStart source + byteLength (left ++ middle ++ right) := by
    rw [lineStop, hprinted]
  have hbefore : label.before source = left := by
    rw [before, hprinted, List.append_assoc, ← List.nil_append left, List.append_assoc,
      ← List.append_assoc]
    refine Lines.charactersAt_middle (fun offset hfrom hto => ?_) (fun offset _ hto => ?_)
      fun offset hfrom _ => ?_
    · simp only [byteLength_nil] at hto
      omega
    · rw [List.nil_append] at hto
      exact decide_eq_true (by omega)
    · rw [List.nil_append] at hfrom
      exact decide_eq_false (by omega)
  have hmarked : label.marked source = middle := by
    rw [marked, hprinted]
    refine Lines.charactersAt_middle (fun offset _ hto => ?_) (fun offset hfrom hto => ?_)
      fun offset hfrom hto => ?_
    all_goals
      simp only [Bool.and_eq_true, Bool.and_eq_false_iff, decide_eq_true_eq,
        decide_eq_false_iff_not]
    all_goals omega
  rw [byteLength_append] at hmiddle
  rw [hbefore, hmarked]
  exact ⟨right, hprinted, hleft, by omega⟩

theorem Shown.marked_eq_nil_iff (h : label.Shown source) : label.marked source = [] ↔
    label.span.stop ≤ label.span.start ∨ label.span.start = label.lineStop source := by
  obtain ⟨_, _, _, hmarked⟩ := h.parts
  have hle := h.le
  constructor
  · intro hnil
    rw [hnil, byteLength_nil] at hmarked
    omega
  · intro hempty
    exact eq_nil_of_byteLength (by omega)

/-- Carets are counted in bytes. -/
theorem Shown.caretCount_eq (h : label.Shown source) :
    caretCount label.span ((Lines.locate source label.span.start).column - 1)
      (byteLength (label.printed source)) = max 1 (byteLength (label.marked source)) := by
  obtain ⟨_, _, hbefore, hmarked⟩ := h.parts
  obtain ⟨_, _, _, hcolumn⟩ := label.starts_line source
  have hle := h.le
  rw [lineStop] at hle hmarked
  rw [caretCount, Span.length, hcolumn]
  omega

/-! ## Rows -/

/-- The row that names the place. -/
def placeRow (label : Label) (source : String) : List Char :=
  [' ', ' ', '-', '-', '>', ' '] ++ (toString (label.line source)).toList ++
    ':' :: (toString (Lines.locate source label.span.start).column).toList

/-- What stands in front of the printed line. -/
def gutter (label : Label) (source : String) : List Char :=
  (toString (label.line source)).toList ++ [' ', '|', ' ']

/-- The same without the number, up to the frame. -/
def margin (label : Label) (source : String) : List Char :=
  List.replicate (toString (label.line source)).length ' ' ++ [' ', '|']

/-- The row below the printed line, up to the last caret. -/
def caretRow (label : Label) (source : String) : List Char :=
  label.margin source ++ ' ' :: List.replicate (byteLength (label.before source)) ' ' ++
    List.replicate (max 1 (byteLength (label.marked source))) '^'

end Label

namespace Styled

theorem toList_plain (pieces : List Styled) :
    (plain pieces).toList = pieces.flatMap fun s => s.text.toList := by
  rw [plain, String.toList_join, List.flatMap_map]

end Styled

namespace Label

variable {label : Label} {source : String}

/-- What stands in the row of the carets behind them, and in the rows up to the end of the
snippet. -/
def caption (label : Label) (source : String) : List Char :=
  (if label.message = "" then [] else ' ' :: label.message.toList) ++
    '\n' :: label.margin source ++ ['\n']

theorem Shown.snippet_rows (h : label.Shown source) :
    (label.snippet source).flatMap (fun s => s.text.toList) =
      label.placeRow source ++ '\n' :: (label.margin source ++ '\n' :: (label.gutter source ++
        label.printed source ++ '\n' :: (label.caretRow source ++ label.caption source))) := by
  obtain ⟨_, _, hbefore, _⟩ := h.parts
  obtain ⟨_, _, _, hcolumn⟩ := label.starts_line source
  have hindent : (Lines.locate source label.span.start).column - 1 =
      byteLength (label.before source) := by omega
  have hcount := h.caretCount_eq
  rw [hindent] at hcount
  have hcaption : (if label.message = "" then []
      else [bare " ", styled .alarm label.message]).flatMap (fun s => s.text.toList) =
      if label.message = "" then [] else ' ' :: label.message.toList := by
    split
    · rfl
    · simp [bare, styled]
  have hstring (text : String) : toString text = text := rfl
  rw [snippet, ← line, ← printed, hindent, hcount]
  simp only [List.flatMap_append, hcaption]
  simp [bare, styled, repeated, placeRow, margin, gutter, caretRow, caption, hstring, printed]

theorem isDigit_of_mem_number {n : Nat} {c : Char} (h : c ∈ (toString n).toList) :
    c.isDigit = true := by
  rw [Nat.toString_eq_repr, Nat.repr, String.toList_ofList] at h
  exact Nat.isDigit_of_mem_toDigits (by decide) (by decide) h

theorem newline_notMem_number (n : Nat) : '\n' ∉ (toString n).toList :=
  fun hmem => absurd (isDigit_of_mem_number hmem) (by decide)

theorem newline_notMem_placeRow (label : Label) (source : String) :
    '\n' ∉ label.placeRow source := by
  simp only [placeRow, List.mem_append, List.mem_cons, newline_notMem_number, or_false]
  decide

theorem newline_notMem_margin (label : Label) (source : String) : '\n' ∉ label.margin source := by
  simp [margin]

theorem newline_notMem_printedRow (label : Label) (source : String) :
    '\n' ∉ label.gutter source ++ label.printed source := by
  simp only [gutter, List.mem_append, newline_notMem_number,
    (label.printed_in_source source).2, or_false]
  decide

theorem newline_notMem_caretRow (label : Label) (source : String) :
    '\n' ∉ label.caretRow source := by
  simp [caretRow, newline_notMem_margin]

end Label

namespace Diagnostic

/-- The rows of a report below its message, as they are read. -/
def rowsBelow (d : Diagnostic) : List (List Char) :=
  (splitAtEach '\n' d.render.toList).drop ((d.heading ++ ": " ++ d.message).toList.count '\n' + 1)

variable {d : Diagnostic} {label : Label} {source : String}

theorem render_snippet (hlabel : d.labels.head? = some label) (hsource : d.source = some source) :
    ∃ advice, d.render.toList = (d.heading ++ ": " ++ d.message).toList ++
      '\n' :: ((label.snippet source).flatMap (fun s => s.text.toList) ++ advice) := by
  obtain ⟨others, hlabels⟩ := List.head?_eq_some_iff.1 hlabel
  have hhead : [styled .alarm d.heading, bare ": ", styled .bold d.message, bare "\n"].flatMap
      (fun s => s.text.toList) = (d.heading ++ ": " ++ d.message).toList ++ ['\n'] := by
    simp [bare, styled]
  rw [render, Styled.toList_plain, layout, hlabels, hsource]
  simp only [List.flatMap_append, hhead, List.append_assoc]
  exact ⟨_, rfl⟩

theorem rowsBelow_eq (hlabel : d.labels.head? = some label) (hsource : d.source = some source)
    (h : label.Shown source) :
    ∃ behind more,
      d.rowsBelow = label.placeRow source :: label.margin source ::
        (label.gutter source ++ label.printed source) :: (label.caretRow source ++ behind) :: more ∧
        behind.head? ≠ some '^' := by
  obtain ⟨advice, hrender⟩ := render_snippet hlabel hsource
  -- Behind the carets comes the message of the label, which may have more than one row.
  obtain ⟨behind, more, hbehind⟩ :=
    List.exists_cons_of_ne_nil (splitAtEach_ne_nil '\n' (label.caption source ++ advice))
  refine ⟨behind, more, ?_, ?_⟩
  · rw [rowsBelow, hrender, drop_splitAtEach, h.snippet_rows]
    simp only [List.append_assoc, List.cons_append]
    rw [splitAtEach_append (label.newline_notMem_placeRow source),
      splitAtEach_append (label.newline_notMem_margin source),
      ← List.append_assoc (label.gutter source),
      splitAtEach_append (label.newline_notMem_printedRow source),
      splitAtEach_prepend (label.newline_notMem_caretRow source) hbehind]
  · intro hhead
    obtain ⟨rest, hcaption⟩ := prefix_of_splitAtEach hbehind
    have hfirst : (label.caption source ++ advice).head? = some '^' := by
      rw [← hcaption, List.head?_append, hhead, Option.some_or]
    rw [Label.caption] at hfirst
    split at hfirst
    · cases hfirst
    · cases hfirst

end Diagnostic

/-! ## Carets -/

namespace Label

/-- How many carets stand one behind the other where the first one is. -/
def caretRun (row : List Char) : Nat := ((row.dropWhile (· != '^')).takeWhile (· == '^')).length

/-- Blanks for the digits of a gutter. -/
def withoutNumber (gutter : List Char) : List Char :=
  gutter.map fun c => if c.isDigit then ' ' else c

/-- The carets of a row point at a label in the row above, which ends with the printed line. -/
structure PointedAt (label : Label) (source : String) (above row : List Char) : Prop where
  /-- Behind the same gutter, the first caret has as many characters in front of it as the label has
  on its line. -/
  first : ∃ gutter, above = gutter ++ label.printed source ∧ withoutNumber gutter <+: row ∧
    row.idxOf '^' = gutter.length + (label.before source).length
  present : 0 < caretRun row
  /-- The carets keep to the characters of the label on its line; if it has none there, there is one
  caret. -/
  inside : caretRun row ≤ max 1 (label.marked source).length

variable {label : Label} {source : String} {front behind : List Char} {count : Nat}

theorem idxOf_carets (hfront : '^' ∉ front) (hcount : 0 < count) (behind : List Char) :
    (front ++ List.replicate count '^' ++ behind).idxOf '^' = front.length := by
  obtain ⟨more, rfl⟩ := Nat.exists_eq_add_one.2 hcount
  rw [List.append_assoc, List.idxOf_append_of_notMem hfront, List.replicate_succ, List.cons_append,
    List.idxOf_cons_self, Nat.add_zero]

theorem caretRun_carets (hfront : '^' ∉ front) (hcount : 0 < count)
    (hbehind : behind.head? ≠ some '^') :
    caretRun (front ++ List.replicate count '^' ++ behind) = count := by
  obtain ⟨more, rfl⟩ := Nat.exists_eq_add_one.2 hcount
  have hskipped : ∀ c ∈ front, (c != '^') = true :=
    fun c hc => bne_iff_ne.2 fun heq => hfront (heq ▸ hc)
  have hrun : ∀ c ∈ List.replicate (more + 1) '^', (c == '^') = true :=
    fun c hc => beq_iff_eq.2 (List.eq_of_mem_replicate hc)
  have hstop : behind.takeWhile (· == '^') = [] := by
    cases behind with
    | nil => rfl
    | cons c rest =>
      exact List.takeWhile_cons_of_neg fun hc => hbehind (congrArg some (beq_iff_eq.1 hc))
  rw [caretRun, List.append_assoc, List.dropWhile_append_of_pos hskipped,
    List.replicate_succ, List.cons_append,
    List.dropWhile_cons_of_neg (by decide), ← List.cons_append, ← List.replicate_succ,
    List.takeWhile_append_of_pos hrun, hstop, List.append_nil, List.length_replicate]

theorem withoutNumber_gutter (label : Label) (source : String) :
    withoutNumber (label.gutter source) = label.margin source ++ [' '] := by
  have hnumber : withoutNumber (toString (label.line source)).toList =
      List.replicate (toString (label.line source)).length ' ' := by
    rw [withoutNumber, ← String.length_toList, ← List.map_const']
    exact List.map_congr_left fun c hc => if_pos (isDigit_of_mem_number hc)
  rw [gutter, withoutNumber, List.map_append, ← withoutNumber, hnumber, margin, List.append_assoc]
  rfl

/-- What stands in front of the first caret. -/
def indented (label : Label) (source : String) : List Char :=
  withoutNumber (label.gutter source) ++ List.replicate (byteLength (label.before source)) ' '

theorem caretRow_eq (label : Label) (source : String) : label.caretRow source =
    label.indented source ++ List.replicate (max 1 (byteLength (label.marked source))) '^' := by
  rw [caretRow, indented, withoutNumber_gutter]
  simp

theorem caret_notMem_indented (label : Label) (source : String) : '^' ∉ label.indented source := by
  rw [indented, withoutNumber_gutter]
  simp [margin]

theorem length_indented (label : Label) (source : String) :
    (label.indented source).length =
      (label.gutter source).length + byteLength (label.before source) := by
  rw [indented, withoutNumber, List.length_append, List.length_map, List.length_replicate]

/-- A row of carets that are counted in bytes, below a row with the printed line. -/
structure MarkedByBytes (label : Label) (source : String) (above row : List Char) : Prop where
  divided : ∃ after, label.printed source = label.before source ++ label.marked source ++ after
  empty_iff : label.marked source = [] ↔
    label.span.stop ≤ label.span.start ∨ label.span.start = label.lineStop source
  above_eq : above = label.gutter source ++ label.printed source
  gutter : withoutNumber (label.gutter source) <+: row
  first : row.idxOf '^' = (label.gutter source).length + byteLength (label.before source)
  run : caretRun row = max 1 (byteLength (label.marked source))
  /-- The first caret stands in the column that is reported. -/
  column : byteLength (label.before source) + 1 = (Lines.locate source label.span.start).column

theorem Shown.markedByBytes (h : label.Shown source) (hbehind : behind.head? ≠ some '^') :
    label.MarkedByBytes source (label.gutter source ++ label.printed source)
      (label.caretRow source ++ behind) := by
  obtain ⟨after, hprinted, hbefore, _⟩ := h.parts
  obtain ⟨_, _, _, hcolumn⟩ := label.starts_line source
  have hfront := label.caret_notMem_indented source
  have hcount : 0 < max 1 (byteLength (label.marked source)) :=
    Nat.lt_of_lt_of_le Nat.one_pos (Nat.le_max_left _ _)
  refine ⟨⟨after, hprinted⟩, h.marked_eq_nil_iff, rfl, ?gutter, ?first, ?run, by omega⟩
  case gutter =>
    rw [caretRow_eq, indented, List.append_assoc, List.append_assoc]
    exact List.prefix_append _ _
  case first => rw [caretRow_eq, idxOf_carets hfront hcount, length_indented]
  case run => rw [caretRow_eq, caretRun_carets hfront hcount hbehind]

/-- Bytes are as good as characters where each character takes one. -/
theorem MarkedByBytes.pointedAt_iff {above row : List Char}
    (h : label.MarkedByBytes source above row) :
    label.PointedAt source above row ↔
      ∀ c ∈ label.before source ++ label.marked source, c.utf8Size = 1 := by
  have hfirst := h.first
  have hrun := h.run
  rw [List.forall_mem_append, ← byteLength_eq_length_iff, ← byteLength_eq_length_iff]
  constructor
  · rintro ⟨⟨gutter, habove, _, hindent⟩, _, hinside⟩
    obtain rfl := List.append_cancel_right (h.above_eq.symm.trans habove)
    have hle := length_le_byteLength (label.marked source)
    -- A single caret may stand for no character, but then there are no bytes either.
    have hempty : (label.marked source).length = 0 → byteLength (label.marked source) = 0 := by
      intro hzero
      rw [List.eq_nil_of_length_eq_zero hzero, byteLength_nil]
    exact ⟨by omega, by omega⟩
  · rintro ⟨hbefore, hmarked⟩
    exact ⟨⟨label.gutter source, h.above_eq, h.gutter, by rw [hfirst, hbefore]⟩, by omega, by omega⟩

end Label

namespace Diagnostic

/-- **Carets count bytes.** Below the message, a report has a row with the place of its first label,
an empty one, the printed line of the label behind a gutter with its number, and a row with carets
behind the same gutter. In front of the first caret are as many characters as the line has bytes in
front of the label, and there are as many carets as the label has bytes on the line, or one. So they
point at the label if and only if no character up to its end on the line has more than one byte. -/
theorem carets_count_bytes {d : Diagnostic} {label : Label} {source : String}
    (hlabel : d.labels.head? = some label) (hsource : d.source = some source)
    (h : label.Shown source) :
    ∃ above row more,
      d.rowsBelow = label.placeRow source :: label.margin source :: above :: row :: more ∧
        label.MarkedByBytes source above row ∧
        (label.PointedAt source above row ↔
          ∀ c ∈ label.before source ++ label.marked source, c.utf8Size = 1) := by
  obtain ⟨behind, more, hrows, hbehind⟩ := rowsBelow_eq hlabel hsource h
  have hmarked := h.markedByBytes hbehind
  exact ⟨_, _, more, hrows, hmarked, hmarked.pointedAt_iff⟩

/-- A label on characters of two and of three bytes, that runs into the next line. -/
def overLineEnd : Diagnostic where
  message := "two\nlines"
  labels := [⟨⟨7, 14⟩, "here\n^"⟩, ⟨⟨0, 1⟩, "elsewhere"⟩]
  source := some "1\né = '日\r\n;"

theorem carets_count_bytes_overLineEnd :
    ∃ label source, overLineEnd.labels.head? = some label ∧
      overLineEnd.source = some source ∧ label.Shown source ∧
      label.before source = ['é', ' ', '=', ' '] ∧ label.marked source = ['\x27', '日'] ∧
      overLineEnd.rowsBelow = ["  --> 2:6", "  |", "2 | é = '日",
        "  |      ^^^^ here", "^", "  |", ""].map String.toList ∧
      label.MarkedByBytes source "2 | é = '日".toList "  |      ^^^^ here".toList ∧
      ¬ label.PointedAt source "2 | é = '日".toList "  |      ^^^^ here".toList := by
  have hstart : (⟨7⟩ : String.Pos.Raw).IsValid "1\né = '日\r\n;" :=
    Span.isValid_byteLength (by decide : _ = "1\né = ".toList ++ "'日\r\n;".toList)
  have hstop : (⟨14⟩ : String.Pos.Raw).IsValid "1\né = '日\r\n;" :=
    Span.isValid_byteLength (by decide : _ = "1\né = '日\r\n;".toList ++ [])
  have hshown : Label.Shown ⟨⟨7, 14⟩, "here\n^"⟩ "1\né = '日\r\n;" := ⟨hstart, hstop, by decide⟩
  have hrows : overLineEnd.rowsBelow = ["  --> 2:6", "  |", "2 | é = '日", "  |      ^^^^ here", "^",
      "  |", ""].map String.toList := by
    rw [rowsBelow, render, Styled.toList_plain]
    decide
  have hbefore : Label.before ⟨⟨7, 14⟩, "here\n^"⟩ "1\né = '日\r\n;" = ['é', ' ', '=', ' '] := by
    decide
  have hlabel : Label.marked ⟨⟨7, 14⟩, "here\n^"⟩ "1\né = '日\r\n;" = ['\x27', '日'] := by decide
  obtain ⟨above, row, more, hbelow, hmarked, hpointed⟩ :=
    carets_count_bytes (d := overLineEnd) rfl rfl hshown
  rw [hrows] at hbelow
  simp only [List.map_cons, List.cons.injEq] at hbelow
  obtain ⟨_, _, rfl, rfl, _⟩ := hbelow
  refine ⟨_, _, rfl, rfl, hshown, hbefore, hlabel, hrows, hmarked, fun h => ?_⟩
  have hone := hpointed.1 h
  rw [hbefore] at hone
  exact absurd (hone 'é' List.mem_cons_self) (by decide)

/-- The label of a token that is out of place, behind a character of two bytes. -/
def behindAccent : Label := ⟨⟨11, 12⟩, "expected expression"⟩

set_option maxRecDepth 8192 in
/-- The caret is one place to the right of its token, where the line has ended. -/
theorem not_pointedAt_behindAccent :
    ∃ e d, (Source.run "x = \"é\" + )" none (Sink.new none)).result = .error e ∧
      e.diagnostics = [d] ∧ d.labels = [behindAccent] ∧ behindAccent.Shown "x = \"é\" + )" ∧
      ({ d with source := some "x = \"é\" + )" } : Diagnostic).rowsBelow.take 4 = ["  --> 1:12",
        "  |", "1 | x = \"é\" + )", "  |            ^ expected expression"].map String.toList ∧
      ¬ behindAccent.PointedAt "x = \"é\" + )"
        "1 | x = \"é\" + )".toList "  |            ^ expected expression".toList := by
  have herror : (Source.run "x = \"é\" + )" none (Sink.new none)).result =
      .error (.parse ⟨.expression, some .plus, .parenClose, ⟨11, 12⟩⟩) := by with_unfolding_all rfl
  have hstart : (⟨11⟩ : String.Pos.Raw).IsValid "x = \"é\" + )" :=
    Span.isValid_byteLength (by decide : _ = "x = \"é\" + ".toList ++ [')'])
  have hstop : (⟨12⟩ : String.Pos.Raw).IsValid "x = \"é\" + )" :=
    Span.isValid_byteLength (by decide : _ = "x = \"é\" + )".toList ++ [])
  refine ⟨_, _, herror, rfl, rfl, ⟨hstart, hstop, by decide⟩, ?rows, ?apart⟩
  case rows =>
    rw [rowsBelow, render, Styled.toList_plain]
    decide
  case apart =>
    rintro ⟨⟨gutter, habove, _, hfirst⟩, _, _⟩
    -- The gutter has four characters and the line ten in front of the token, but the caret has
    -- fifteen in front of it.
    have hlength := congrArg List.length habove
    have habove : "1 | x = \"é\" + )".toList.length = 15 := by decide
    have hprinted : (behindAccent.printed "x = \"é\" + )").length = 11 := by decide
    have hbefore : (behindAccent.before "x = \"é\" + )").length = 10 := by decide
    have hrow : "  |            ^ expected expression".toList.idxOf '^' = 15 := by decide
    rw [List.length_append] at hlength
    omega

end Diagnostic

end LineScript
