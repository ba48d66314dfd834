import LineScript.Token.Scan
import Mathlib.Data.List.TakeWhile

/-!
# A newline ends every token

Scanning a text does not depend on what follows it on the next line. No rule matches across a
newline but the one for literals between backticks, and that only if it does not match without the
newline either. So the longest match of a text is the longest match of the text with more lines
behind it, unless there was no match at all (`longest_append_newline`). From this, the tokens of two
texts on lines of their own are the tokens of one and then those of the other, moved on; the newline
marks the last token in front of it (`scanFrom_append`).
-/

set_option autoImplicit false

namespace LineScript

namespace Pattern

variable {text more : List Char}

/-! ## Rules -/

/-- The match at the head of a text is the same if more lines follow. -/
def StopsAtNewline (length : List Char → Nat) : Prop :=
  ∀ text more, text ≠ [] → length (text ++ '\n' :: more) = length text

/-- A run of characters is no longer than the text. -/
theorem takeWhile_length_le (p : Char → Bool) (text : List Char) :
    (text.takeWhile p).length ≤ text.length :=
  (List.takeWhile_sublist p).length_le

/-- A run that does not take newlines ends with its line. -/
theorem takeWhile_append_newline {p : Char → Bool} (hp : p '\n' = false) (text more : List Char) :
    (text ++ '\n' :: more).takeWhile p = text.takeWhile p := by
  induction text with
  | nil => simp [hp]
  | cons c rest ih => rw [List.cons_append, List.takeWhile_cons, List.takeWhile_cons, ih]

/-- A fixed word without a newline in it stands at the head of a line or not at all. -/
theorem isPrefixOf_append_newline {word : List Char} (hword : '\n' ∉ word) (text more : List Char) :
    word.isPrefixOf (text ++ '\n' :: more) = word.isPrefixOf text := by
  induction word generalizing text with
  | nil => simp
  | cons w rest ih =>
    obtain ⟨hw, hrest⟩ := List.ne_and_not_mem_of_not_mem_cons hword
    cases text with
    | nil => simp [List.isPrefixOf, hw.symm]
    | cons c text => rw [List.cons_append, List.isPrefixOf, List.isPrefixOf, ih hrest]

/-- Words and signs. -/
theorem fixed_stops {word : List Char} (hword : '\n' ∉ word) : StopsAtNewline (fixed word) := by
  intro text more _
  rw [fixed, fixed, isPrefixOf_append_newline hword]

/-- The newline itself is the first character of what it matches, and the text in front is not
empty. -/
theorem newline_stops : StopsAtNewline (fixed ['\n']) := by
  intro text more hne
  obtain ⟨c, rest, rfl⟩ := List.exists_cons_of_ne_nil hne
  simp [fixed, List.isPrefixOf]

/-- Blanks are not newlines. -/
theorem blanks_stops : StopsAtNewline blanks := by
  intro text more _
  rw [blanks, blanks, takeWhile_append_newline rfl]

/-- A comment reaches to the end of its line. Two characters are looked at before its run starts,
hence the cases. -/
theorem comment_stops : StopsAtNewline comment := by
  intro text more hne
  match text with
  | [c] => by_cases hc : c = '/' <;> simp [comment, hc]
  | c :: d :: rest =>
    by_cases hslashes : c = '/' ∧ d = '/'
    · obtain ⟨rfl, rfl⟩ := hslashes
      rw [List.cons_append, List.cons_append, comment, comment,
        takeWhile_append_newline (by decide)]
    · rw [List.cons_append, List.cons_append, comment, comment]
      all_goals
        intro rest' heq
        simp only [List.cons.injEq] at heq
        exact hslashes ⟨heq.1, heq.2.1⟩

/-- Names. -/
theorem name_stops : StopsAtNewline name := by
  intro text more hne
  obtain ⟨c, rest, rfl⟩ := List.exists_cons_of_ne_nil hne
  rw [List.cons_append, name, name, takeWhile_append_newline (by decide)]

/-- Numbers: the digits in front of the point, the point, and the digits behind it are all on one
line. -/
theorem number_stops : StopsAtNewline number := by
  intro text more _
  have hdigit : Char.isDigit '\n' = false := by decide
  have hwhole : (text.takeWhile Char.isDigit).length ≤ text.length := takeWhile_length_le _ _
  simp only [number]
  rw [takeWhile_append_newline hdigit, List.drop_append_of_le_length hwhole]
  -- The point, if there is one, stands on the same line.
  rcases text.drop (text.takeWhile Char.isDigit).length with _ | ⟨c, rest⟩
  · rfl
  · by_cases hc : c = '.'
    · subst hc
      simp only [List.cons_append, takeWhile_append_newline hdigit]
    · simp [hc]

/-- The search for a closing quote gives up at a newline. A backslash takes the next character
along, but not if that is the newline. -/
theorem closing?_append_newline {quote : Char} (hnewline : quote ≠ '\n') (hbackslash : quote ≠ '\\')
    (text more : List Char) : closing? quote (text ++ '\n' :: more) = closing? quote text := by
  fun_induction closing? quote text with
  | case1 => simp [closing?, hnewline.symm]
  | case2 => simp [closing?]
  | case3 c rest hc ih => simp [closing?, hc, ih]
  | case4 rest => simp [closing?, hbackslash]
  | case5 c rest hpair hquote hstop =>
    rcases hstop with rfl | rfl
    · simp [closing?, hnewline.symm]
    · -- A backslash at the very end takes no newline along.
      cases rest with
      | nil => simp [closing?]
      | cons d rest => exact (hpair d rest rfl rfl).elim
  | case6 c rest _ hquote hstop ih =>
    obtain ⟨hc, hslash⟩ := not_or.1 hstop
    simp [closing?, hquote, hc, hslash, ih]

/-- Literals between quotes that take no newline, as strings and chars. -/
theorem quoted_stops {quote : Char} (hnewline : quote ≠ '\n') (hbackslash : quote ≠ '\\') :
    StopsAtNewline (quoted quote) := by
  intro text more hne
  obtain ⟨c, rest, rfl⟩ := List.exists_cons_of_ne_nil hne
  rw [List.cons_append, quoted, quoted, closing?_append_newline hnewline hbackslash]

/-- A literal between backticks that is complete stays as it is; one that is not may be completed by
a later line. -/
theorem raw_append (h : raw text ≠ 0) (more : List Char) : raw (text ++ more) = raw text := by
  have hclosed : ∀ rest : List Char, '\x60' ∈ rest →
      (rest ++ more).takeWhile (· != '\x60') = rest.takeWhile (· != '\x60') := by
    intro rest hmem
    induction rest with
    | nil => cases hmem
    | cons c rest ih =>
      rw [List.cons_append, List.takeWhile_cons, List.takeWhile_cons]
      split
      · rename_i hc
        rw [ih ((List.mem_cons.1 hmem).resolve_left (by simpa using Ne.symm (by simpa using hc)))]
      · rfl
  unfold raw at h
  split at h
  · rename_i rest
    split at h
    · rename_i hmem
      have hmem' : '\x60' ∈ rest := by simpa using hmem
      simp [raw, hmem', hclosed rest hmem']
    · exact absurd rfl h
  · exact absurd rfl h

/-! ## Choice -/

/-- The rule for literals between backticks. -/
def rawRule : Rule := ⟨some .dataLiteral, raw⟩

/-- Nothing matches at a backtick. -/
def SkipsBacktick (length : List Char → Nat) : Prop := ∀ rest, length ('\x60' :: rest) = 0

/-- Words and signs, none of which starts with a backtick. -/
theorem fixed_skips {word : List Char} (h : word.head?.any (· != '\x60') = true) :
    SkipsBacktick (fixed word) := by
  intro rest
  cases word with
  | nil => cases h
  | cons w word =>
    have hw : w ≠ '\x60' := by simpa using h
    simp [fixed, List.isPrefixOf, hw]

/-- All other rules stop at newlines, and match nothing at a backtick. -/
theorem rules_stop {rule : Rule} (h : rule ∈ rules) :
    rule = rawRule ∨ StopsAtNewline rule.length ∧ SkipsBacktick rule.length := by
  simp only [rules, List.mem_append, List.mem_cons, List.mem_map, List.not_mem_nil, or_false] at h
  rcases h with ((rfl | rfl) | ⟨kind, hkind, rfl⟩) | rfl | rfl | rfl | rfl | rfl | rfl | rfl | rfl
  · exact Or.inr ⟨fixed_stops (by decide), fixed_skips (by decide)⟩
  · exact Or.inr ⟨fixed_stops (by decide), fixed_skips (by decide)⟩
  · refine Or.inr ⟨fixed_stops ?_, fixed_skips ?_⟩
    · revert kind
      decide
    · revert kind
      decide
  · exact Or.inr ⟨newline_stops, fixed_skips (by decide)⟩
  · exact Or.inr ⟨blanks_stops, fun _ => rfl⟩
  · exact Or.inr ⟨comment_stops, fun _ => rfl⟩
  · exact Or.inr ⟨quoted_stops (by decide) (by decide), fun _ => rfl⟩
  · exact Or.inl rfl
  · exact Or.inr ⟨number_stops, fun _ => rfl⟩
  · exact Or.inr ⟨quoted_stops (by decide) (by decide), fun _ => rfl⟩
  · exact Or.inr ⟨name_stops, fun _ => rfl⟩

/-- The choice among the rules as a fold over their matches, which two texts share if all their
matches are equal. -/
theorem longest_eq (text : List Char) :
    longest text = (rules.map fun rule => ⟨rule.kind, rule.length text⟩).foldl Match.better
      ⟨none, 0⟩ := by
  rw [longest, List.foldl_map]

/-- The best match is one of them. -/
theorem foldl_better_mem (best : Match) (others : List Match) :
    others.foldl Match.better best ∈ best :: others := by
  induction others generalizing best with
  | nil => exact List.mem_singleton_self best
  | cons other others ih =>
    rw [List.foldl_cons, List.mem_cons]
    rcases List.mem_cons.1 (ih (best.better other)) with h | h
    · rw [h, Match.better]
      split
      · exact Or.inr List.mem_cons_self
      · exact Or.inl rfl
    · exact Or.inr (List.mem_cons_of_mem _ h)

/-- The longest match is one of a rule, or there is none. -/
theorem longest_cases (text : List Char) :
    longest text = ⟨none, 0⟩ ∨ ∃ rule ∈ rules, longest text = ⟨rule.kind, rule.length text⟩ := by
  rw [longest_eq]
  rcases List.mem_cons.1
    (foldl_better_mem ⟨none, 0⟩ (rules.map fun rule => ⟨rule.kind, rule.length text⟩)) with h | h
  · exact Or.inl h
  · obtain ⟨rule, hrule, hmatch⟩ := List.mem_map.1 h
    exact Or.inr ⟨rule, hrule, hmatch.symm⟩

/-- **A newline ends every token.** The longest match of a text, if there is one, is the longest
match of the text with more lines behind it. -/
theorem longest_append_newline (hne : text ≠ []) (h : (longest text).length ≠ 0)
    (more : List Char) : longest (text ++ '\n' :: more) = longest text := by
  -- Without the closing backtick nothing matches at the opening one.
  have hraw : raw (text ++ '\n' :: more) = raw text := by
    by_cases hzero : raw text = 0
    · obtain ⟨c, rest, rfl⟩ := List.exists_cons_of_ne_nil hne
      by_cases hc : c = '\x60'
      · subst hc
        refine absurd ?_ h
        rcases longest_cases ('\x60' :: rest) with hnone | ⟨rule, hrule, hmatch⟩
        · rw [hnone]
        · rw [hmatch]
          rcases rules_stop hrule with rfl | ⟨_, hnothing⟩
          · exact hzero
          · exact hnothing rest
      · simp [raw, hc]
    · exact raw_append hzero _
  rw [longest_eq, longest_eq]
  congr 1
  refine List.map_congr_left fun rule hrule => ?_
  rcases rules_stop hrule with rfl | ⟨hstops, _⟩
  · exact congrArg (Match.mk _) hraw
  · rw [hstops text more hne]

/-! ## Lengths -/

/-- No rule matches more than there is; the lemmas up to `rule_length_le` say so of each. -/
theorem fixed_length_le (word text : List Char) : fixed word text ≤ text.length := by
  rw [fixed]
  split
  · rename_i h
    have hword := List.isPrefixOf_iff_prefix.1 h
    exact hword.length_le
  · exact Nat.zero_le _

theorem comment_length_le (text : List Char) : comment text ≤ text.length := by
  unfold comment
  split
  · rename_i rest
    have hle := takeWhile_length_le (· != '\n') rest
    simp only [List.length_cons]
    omega
  · exact Nat.zero_le _

theorem name_length_le (text : List Char) : name text ≤ text.length := by
  cases text with
  | nil => exact Nat.le_refl _
  | cons c rest =>
    have hle := takeWhile_length_le isNamePart rest
    rw [name, List.length_cons]
    split <;> omega

/-- The digits behind the point are counted in what the digits in front of it leave. -/
theorem number_length_le (text : List Char) : number text ≤ text.length := by
  have hwhole := takeWhile_length_le Char.isDigit text
  have hdrop : (text.drop (text.takeWhile Char.isDigit).length).length =
      text.length - (text.takeWhile Char.isDigit).length := List.length_drop
  simp only [number]
  split
  · exact Nat.zero_le _
  · split
    · rename_i rest heq
      have hfraction := takeWhile_length_le Char.isDigit rest
      rw [heq, List.length_cons] at hdrop
      split <;> omega
    · exact hwhole

/-- The closing quote is inside the text. -/
theorem closing?_le {quote : Char} {text : List Char} {n : Nat} (h : closing? quote text = some n) :
    n ≤ text.length := by
  fun_induction closing? quote text generalizing n with
  | case1 => cases h
  | case2 => cases h
  | case3 c rest hc ih =>
    obtain ⟨m, hm, rfl⟩ := Option.map_eq_some_iff.1 h
    have hle := ih hm
    simp only [List.length_cons]
    omega
  | case4 rest =>
    obtain rfl := Option.some.inj h
    simp
  | case5 => cases h
  | case6 c rest _ _ _ ih =>
    obtain ⟨m, hm, rfl⟩ := Option.map_eq_some_iff.1 h
    have hle := ih hm
    simp only [List.length_cons]
    omega

theorem quoted_length_le (quote : Char) (text : List Char) : quoted quote text ≤ text.length := by
  cases text with
  | nil => exact Nat.le_refl _
  | cons c rest =>
    rw [quoted]
    split
    · rcases hclosing : closing? quote rest with _ | n
      · exact Nat.zero_le _
      · exact Nat.succ_le_succ (closing?_le hclosing)
    · exact Nat.zero_le _

theorem raw_length_le (text : List Char) : raw text ≤ text.length := by
  unfold raw
  split
  · rename_i rest
    split
    · rename_i hmem
      have hlt : (rest.takeWhile (· != '\x60')).length < rest.length := by
        refine Nat.lt_of_le_of_ne (takeWhile_length_le _ _) fun heq => ?_
        have hall := List.takeWhile_eq_self_iff.1 ((List.takeWhile_sublist _).eq_of_length heq)
        have hbacktick := hall '\x60' (by simpa using hmem)
        cases hbacktick
      rw [List.length_cons]
      omega
    · exact Nat.zero_le _
  · exact Nat.zero_le _

/-- For any rule of the language, from the lemmas above. -/
theorem rule_length_le {rule : Rule} (h : rule ∈ rules) (text : List Char) :
    rule.length text ≤ text.length := by
  simp only [rules, List.mem_append, List.mem_cons, List.mem_map, List.not_mem_nil, or_false] at h
  rcases h with ((rfl | rfl) | ⟨kind, _, rfl⟩) | rfl | rfl | rfl | rfl | rfl | rfl | rfl | rfl
  · exact fixed_length_le _ _
  · exact fixed_length_le _ _
  · exact fixed_length_le _ _
  · exact fixed_length_le _ _
  · exact takeWhile_length_le _ _
  · exact comment_length_le _
  · exact quoted_length_le _ _
  · exact raw_length_le _
  · exact number_length_le _
  · exact quoted_length_le _ _
  · exact name_length_le _

/-- So the scanner never runs past the end of a source. -/
theorem longest_length_le (text : List Char) : (longest text).length ≤ text.length := by
  rcases longest_cases text with h | ⟨rule, hrule, h⟩
  · rw [h]
    exact Nat.zero_le _
  · rw [h]
    exact rule_length_le hrule text

/-- No text is an end of file. -/
theorem longest_kind_ne (text : List Char) : (longest text).kind ≠ some .endOfFile := by
  rcases longest_cases text with h | ⟨rule, hrule, h⟩
  · rw [h]
    exact (Option.some_ne_none _).symm
  · have hkinds : ∀ kind ∈ rules.map Rule.kind, kind ≠ some .endOfFile := by decide
    rw [h]
    exact hkinds _ (List.mem_map_of_mem hrule)

/-- A newline is a token by itself, whatever follows. -/
theorem longest_newline (more : List Char) : longest ('\n' :: more) = ⟨some .newline, 1⟩ := by
  rfl

end Pattern

end LineScript
