import LineScript.Json
import LineScript.Proofs.DecimalText

/-!
# The lexemes of JSON text

JSON text falls into lexemes: brackets, commas and colons, words, numbers and strings, with blanks
between them that say nothing. `Json.lexemes?` cuts a text into its lexemes, and fails where no
lexeme starts. It reads the lexical grammar of JSON as it stands, with two restrictions that follow
from the type of values: numbers are whole, and an escape by a code point names a character.

`Json.lexemes` are the lexemes of a value. Both ways of writing a value come to exactly these
(`lexemes?_compact`, `lexemes?_pretty`), so from here on a value on one line and a value over
several lines are the same. Each piece of text is treated with all that follows it; a number is the
only one whose end is seen by what follows.
-/

set_option autoImplicit false

namespace LineScript.Json

/-- The pieces that JSON text falls into. -/
inductive Lexeme where
  | openArray
  | closeArray
  | openObject
  | closeObject
  | colon
  | comma
  | null
  | bool (b : Bool)
  | number (n : Int)
  | string (s : String)
deriving DecidableEq

/-! ## Cutting text -/

/-- What may stand between lexemes. -/
def isBlank (c : Char) : Bool := c == ' ' || c == '\n' || c == '\r' || c == '\t'

/-- The value of a hexadecimal digit. -/
def hexValue? (c : Char) : Option Nat :=
  if '0' ≤ c ∧ c ≤ '9' then some (c.toNat - '0'.toNat)
  else if 'a' ≤ c ∧ c ≤ 'f' then some (c.toNat - 'a'.toNat + 10)
  else if 'A' ≤ c ∧ c ≤ 'F' then some (c.toNat - 'A'.toNat + 10)
  else none

/-- The character with a code point of four hexadecimal digits. -/
def hexChar? (a b c d : Char) : Option Char := do
  let a ← hexValue? a
  let b ← hexValue? b
  let c ← hexValue? c
  let d ← hexValue? d
  let n := ((a * 16 + b) * 16 + c) * 16 + d
  if n.isValidChar then some (Char.ofNat n) else none

/-- What a backslash and a letter stand for. -/
def letterChar? (c : Char) : Option Char :=
  if c = '\x22' ∨ c = '\\' ∨ c = '/' then some c
  else if c = 'b' then some '\x08'
  else if c = 'f' then some '\x0c'
  else if c = 'n' then some '\n'
  else if c = 'r' then some '\r'
  else if c = 't' then some '\t'
  else none

/-- The characters of a string up to the quote that closes it, and what is behind that quote. -/
def quoted? : List Char → Option (List Char × List Char)
  | [] => none
  | '\\' :: 'u' :: a :: b :: c :: d :: rest => do
    let char ← hexChar? a b c d
    let (chars, behind) ← quoted? rest
    some (char :: chars, behind)
  | '\\' :: letter :: rest => do
    let char ← letterChar? letter
    let (chars, behind) ← quoted? rest
    some (char :: chars, behind)
  | char :: rest =>
    if char = '\x22' then some ([], rest)
    else if char = '\\' ∨ char.toNat < 0x20 then none
    else do
      let (chars, behind) ← quoted? rest
      some (char :: chars, behind)

/-- The number at the head of a text, and what is behind its digits. There is at least one digit,
and of several the first is not zero. -/
def natural? (text : List Char) : Option (Nat × List Char) :=
  let digits := text.takeWhile Char.isDigit
  if digits = [] ∨ digits.head? = some '0' ∧ digits ≠ ['0'] then none
  else some (Decimal.digitsValue digits, text.dropWhile Char.isDigit)

/-- A whole number with its sign, and what is behind it. -/
def number? : List Char → Option (Int × List Char)
  | '-' :: rest => (natural? rest).map fun (n, behind) => (-n, behind)
  | text => (natural? text).map fun (n, behind) => (n, behind)

/-- The lexemes of one character. -/
def mark? (c : Char) : Option Lexeme :=
  if c = '[' then some .openArray
  else if c = ']' then some .closeArray
  else if c = '\x7b' then some .openObject
  else if c = '\x7d' then some .closeObject
  else if c = ':' then some .colon
  else if c = ',' then some .comma
  else none

/-- The words. -/
def words : List (List Char × Lexeme) :=
  [("null".toList, .null), ("true".toList, .bool true), ("false".toList, .bool false)]

/-- The lexeme at the head of a text, and what is behind it. -/
def lexeme? : List Char → Option (Lexeme × List Char)
  | [] => none
  | c :: rest =>
    match mark? c with
    | some mark => some (mark, rest)
    | none =>
      if c = '\x22' then
        (quoted? rest).map fun (chars, behind) => (.string (String.ofList chars), behind)
      else if c = '-' ∨ c.isDigit then
        (number? (c :: rest)).map fun (n, behind) => (.number n, behind)
      else
        words.findSome? fun (word, lexeme) =>
          if word.isPrefixOf (c :: rest) then some (lexeme, (c :: rest).drop word.length) else none

variable {c : Char} {chars rest behind digits text : List Char} {l : Lexeme}
    {ls : List Lexeme} {n : Nat}

/-- A string takes at least the quote that closes it. -/
theorem quoted?_shorter (h : quoted? text = some (chars, behind)) :
    behind.length < text.length := by
  fun_induction quoted? text generalizing chars with
  | case1 => cases h
  | case2 a b c d rest ih =>
    obtain ⟨_, -, h⟩ := Option.bind_eq_some_iff.1 h
    obtain ⟨⟨inner, _⟩, hinner, h⟩ := Option.bind_eq_some_iff.1 h
    cases h
    have := ih hinner
    simp only [List.length_cons]
    omega
  | case3 letter rest _ ih =>
    obtain ⟨_, -, h⟩ := Option.bind_eq_some_iff.1 h
    obtain ⟨⟨inner, _⟩, hinner, h⟩ := Option.bind_eq_some_iff.1 h
    cases h
    have := ih hinner
    simp only [List.length_cons]
    omega
  | case4 =>
    cases h
    exact Nat.lt_succ_self _
  | case5 => cases h
  | case6 char rest _ _ _ _ ih =>
    obtain ⟨⟨inner, _⟩, hinner, h⟩ := Option.bind_eq_some_iff.1 h
    cases h
    have := ih hinner
    simp only [List.length_cons]
    omega

/-- The readers of strings, numbers and words each use up something, so reading lexemes comes to an
end. -/
theorem natural?_shorter (h : natural? text = some (n, behind)) : behind.length < text.length := by
  dsimp only [natural?] at h
  split at h
  · cases h
  · rename_i hdigits
    cases h
    have hlength :=
      congrArg List.length (List.takeWhile_append_dropWhile (p := Char.isDigit) (l := text))
    have hpos : 0 < (text.takeWhile Char.isDigit).length :=
      List.length_pos_of_ne_nil fun hnil => hdigits (.inl hnil)
    rw [List.length_append] at hlength
    omega

theorem number?_shorter {i : Int} (h : number? text = some (i, behind)) :
    behind.length < text.length := by
  unfold number? at h
  split at h
  · obtain ⟨⟨n, _⟩, hnatural, hi⟩ := Option.map_eq_some_iff.1 h
    cases hi
    exact Nat.lt_succ_of_lt (natural?_shorter hnatural)
  · obtain ⟨⟨n, _⟩, hnatural, hi⟩ := Option.map_eq_some_iff.1 h
    cases hi
    exact natural?_shorter hnatural

theorem words_ne_nil : ∀ word ∈ words, word.1 ≠ [] := by decide

/-- A lexeme takes at least one character. -/
theorem lexeme?_shorter (h : lexeme? text = some (l, behind)) : behind.length < text.length := by
  unfold lexeme? at h
  split at h
  · cases h
  · rename_i c rest
    split at h
    · -- A mark is one character.
      cases h
      exact Nat.lt_succ_self _
    · split at h
      · obtain ⟨⟨chars, _⟩, hquoted, hl⟩ := Option.map_eq_some_iff.1 h
        cases hl
        exact Nat.lt_succ_of_lt (quoted?_shorter hquoted)
      · split at h
        · obtain ⟨⟨i, _⟩, hnumber, hl⟩ := Option.map_eq_some_iff.1 h
          cases hl
          exact number?_shorter hnumber
        · -- What is behind a word is the text without as many characters as the word has, and it
          -- has some.
          obtain ⟨word, hword, hl⟩ := List.exists_of_findSome?_eq_some h
          obtain ⟨-, hl⟩ := Option.ite_none_right_eq_some.1 hl
          cases hl
          have hpos := List.length_pos_of_ne_nil (words_ne_nil word hword)
          simp only [List.length_drop, List.length_cons]
          omega

/-- The lexemes of a text, in order. Blanks between them are skipped. -/
def lexemes? : List Char → Option (List Lexeme)
  | [] => some []
  | c :: rest =>
    if isBlank c then lexemes? rest
    else match h : lexeme? (c :: rest) with
      | none => none
      | some (l, behind) =>
        have := lexeme?_shorter h
        (lexemes? behind).map (l :: ·)
termination_by text => text.length
decreasing_by
  · exact Nat.lt_succ_self _
  · assumption

theorem lexemes?_nil : lexemes? [] = some [] := by rw [lexemes?]

theorem lexemes?_blank (hc : isBlank c = true) (rest : List Char) :
    lexemes? (c :: rest) = lexemes? rest := by
  rw [lexemes?, if_pos hc]

/-- A lexeme in front of a text is the first of its lexemes. -/
theorem lexemes?_of_lexeme? (hc : isBlank c = false) (h : lexeme? (c :: rest) = some (l, behind)) :
    lexemes? (c :: rest) = (lexemes? behind).map (l :: ·) := by
  rw [lexemes?, if_neg (by rw [hc]; exact Bool.false_ne_true)]
  split
  · rename_i hnone
    rw [h] at hnone
    cases hnone
  · rename_i _ _ hsome
    rw [h] at hsome
    cases hsome
    rfl

/-! ## Marks and blanks -/

theorem isBlank_cases (h : isBlank c = true) : c = ' ' ∨ c = '\n' ∨ c = '\r' ∨ c = '\t' := by
  simpa [isBlank, or_assoc] using h

theorem lexemes?_mark (h : mark? c = some l) (rest : List Char) :
    lexemes? (c :: rest) = (lexemes? rest).map (l :: ·) := by
  have hblank : isBlank c = false := by
    by_contra hblank
    rcases isBlank_cases (Bool.not_eq_false _ ▸ hblank) with rfl | rfl | rfl | rfl
    all_goals cases h
  apply lexemes?_of_lexeme? hblank
  rw [lexeme?, h]

/-- Nothing but blanks. -/
def Blanks (gap : List Char) : Prop := ∀ x ∈ gap, isBlank x = true

theorem blanks_nil : Blanks [] := List.forall_mem_nil _

theorem blanks_one (h : isBlank c = true) : Blanks [c] := List.forall_mem_singleton.2 h

/-- Gaps of any length are skipped; the two printers differ in nothing else. -/
theorem lexemes?_blanks {gap : List Char} (h : Blanks gap) (rest : List Char) :
    lexemes? (gap ++ rest) = lexemes? rest := by
  induction gap with
  | nil => rfl
  | cons x gap ih =>
    rw [List.cons_append, lexemes?_blank (h x List.mem_cons_self)]
    exact ih fun y hy => h y (List.mem_cons_of_mem x hy)

theorem blanks_newline (depth : Nat) : Blanks (newline depth) := by
  intro x hx
  rcases List.mem_cons.1 hx with rfl | hx
  · rfl
  · rw [List.eq_of_mem_replicate hx]
    rfl

/-! ## Strings -/

theorem hexValue?_digitChar : ∀ d < 16, hexValue? (Nat.digitChar d) = some d := by decide

/-- A control character is got back from the last two of its four digits. -/
theorem hexChar?_hexPair (h : c.toNat < 0x20) :
    hexChar? '0' '0' (Nat.digitChar (c.toNat / 16 % 16)) (Nat.digitChar (c.toNat % 16)) =
      some c := by
  have hhigh := hexValue?_digitChar (c.toNat / 16 % 16) (Nat.mod_lt _ (by decide))
  have hlow := hexValue?_digitChar (c.toNat % 16) (Nat.mod_lt _ (by decide))
  have hzero : hexValue? '0' = some 0 := rfl
  have hn : ((0 * 16 + 0) * 16 + c.toNat / 16 % 16) * 16 + c.toNat % 16 = c.toNat := by omega
  simp only [hexChar?, hzero, hhigh, hlow, hn, Option.bind_eq_bind, Option.bind_some]
  rw [if_pos (show c.toNat.isValidChar from c.valid), Char.ofNat_toNat]

/-- A letter behind a backslash is not the one that a code point follows. -/
theorem quoted?_letter {letter : Char} (h : letterChar? letter = some c) (rest : List Char) :
    quoted? ('\\' :: letter :: rest) =
      (quoted? rest).map fun (chars, behind) => (c :: chars, behind) := by
  have hu : letter ≠ 'u' := by
    rintro rfl
    cases h
  rw [quoted?, h]
  · cases quoted? rest <;> rfl
  · intro _ _ _ _ _ heq
    exact absurd heq hu

theorem quoted?_plain (hquote : c ≠ '\x22') (hback : c ≠ '\\') (hprint : ¬ c.toNat < 0x20)
    (rest : List Char) :
    quoted? (c :: rest) = (quoted? rest).map fun (chars, behind) => (c :: chars, behind) := by
  rw [quoted?, if_neg hquote, if_neg (not_or.2 ⟨hback, hprint⟩)]
  · cases quoted? rest <;> rfl
  · exact fun _ _ _ _ _ heq => absurd heq hback
  · exact fun _ _ heq => absurd heq hback

/-- The three ways in which a character is written. -/
theorem escapeChar_cases (c : Char) :
    (∃ letter, letterChar? letter = some c ∧ escapeChar c = ['\\', letter]) ∨
      (c.toNat < 0x20 ∧ escapeChar c = '\\' :: 'u' :: '0' :: '0' :: hexPair c.toNat) ∨
      (c ≠ '\x22' ∧ c ≠ '\\' ∧ ¬ c.toNat < 0x20) ∧ escapeChar c = [c] := by
  unfold escapeChar
  split_ifs with hquote hback hn hr ht hb hf hcontrol
  · exact .inl ⟨'\x22', by rw [hquote]; rfl, rfl⟩
  · exact .inl ⟨'\\', by rw [hback]; rfl, rfl⟩
  · exact .inl ⟨'n', by rw [hn]; rfl, rfl⟩
  · exact .inl ⟨'r', by rw [hr]; rfl, rfl⟩
  · exact .inl ⟨'t', by rw [ht]; rfl, rfl⟩
  · exact .inl ⟨'b', by rw [hb]; rfl, rfl⟩
  · exact .inl ⟨'f', by rw [hf]; rfl, rfl⟩
  · exact .inr (.inl ⟨hcontrol, rfl⟩)
  · exact .inr (.inr ⟨⟨hquote, hback, hcontrol⟩, rfl⟩)

/-- However a character is written, it is read again, and nothing of what follows goes with it. -/
theorem quoted?_escapeChar (c : Char) (rest : List Char) :
    quoted? (escapeChar c ++ rest) =
      (quoted? rest).map fun (chars, behind) => (c :: chars, behind) := by
  rcases escapeChar_cases c with
    ⟨letter, hletter, heq⟩ | ⟨hcontrol, heq⟩ | ⟨⟨hquote, hback, hprint⟩, heq⟩
  · rw [heq]
    exact quoted?_letter hletter rest
  · rw [heq, hexPair]
    show quoted? ('\\' :: 'u' :: '0' :: '0' :: _ :: _ :: rest) = _
    rw [quoted?, hexChar?_hexPair hcontrol]
    cases quoted? rest <;> rfl
  · rw [heq]
    exact quoted?_plain hquote hback hprint rest

/-- An escaped text is read up to the quote that closes it, whatever stands behind. -/
theorem quoted?_escaped (chars rest : List Char) :
    quoted? (chars.flatMap escapeChar ++ '\x22' :: rest) = some (chars, rest) := by
  induction chars with
  | nil =>
    rw [List.flatMap_nil, List.nil_append, quoted?, if_pos rfl]
    · exact fun _ _ _ _ _ heq => by cases heq
    · exact fun _ _ heq => by cases heq
  | cons c chars ih =>
    rw [List.flatMap_cons, List.append_assoc, quoted?_escapeChar, ih]
    rfl

theorem lexemes?_quote (s : String) (rest : List Char) :
    lexemes? (quote s ++ rest) = (lexemes? rest).map (.string s :: ·) := by
  rw [quote, List.cons_append, List.append_assoc, List.singleton_append]
  apply lexemes?_of_lexeme? rfl
  have hmark : mark? '\x22' = none := rfl
  rw [lexeme?, hmark]
  dsimp only
  rw [if_pos rfl, quoted?_escaped, Option.map_some, String.ofList_toList]

/-! ## Numbers and words -/

/-- A text that does not go on with a digit. -/
def NoDigit (text : List Char) : Prop := ∀ c ∈ text.head?, c.isDigit = false

theorem noDigit_cons (h : c.isDigit = false) (rest : List Char) : NoDigit (c :: rest) := by
  intro d hd
  cases hd
  exact h

theorem noDigit_nil : NoDigit [] := by
  intro d hd
  cases hd

theorem Blanks.noDigit {gap : List Char} (h : Blanks gap) (hrest : NoDigit rest) :
    NoDigit (gap ++ rest) := by
  cases gap with
  | nil => exact hrest
  | cons x gap =>
    apply noDigit_cons
    rcases isBlank_cases (h x List.mem_cons_self) with rfl | rfl | rfl | rfl
    all_goals rfl

theorem noDigit_flatMap {α : Type} (f : α → List Char) (xs : List α) (hrest : NoDigit rest) :
    NoDigit ((xs.flatMap fun x => ',' :: f x) ++ rest) := by
  cases xs with
  | nil => exact hrest
  | cons x xs => exact noDigit_cons rfl _

theorem takeWhile_of_noDigit (h : NoDigit text) : text.takeWhile Char.isDigit = [] := by
  cases text with
  | nil => rfl
  | cons c rest => exact List.takeWhile_cons_of_neg (by rw [h c rfl]; exact Bool.false_ne_true)

theorem dropWhile_of_noDigit (h : NoDigit text) : text.dropWhile Char.isDigit = text := by
  have happend := List.takeWhile_append_dropWhile (p := Char.isDigit) (l := text)
  rwa [takeWhile_of_noDigit h] at happend

theorem isDigit_toDigits (n : Nat) : ∀ d ∈ Nat.toDigits 10 n, d.isDigit = true := by
  intro d hd
  exact Nat.isDigit_of_mem_toDigits (by decide) (by decide) hd

theorem toDigits_cons (n : Nat) : ∃ d ds, Nat.toDigits 10 n = d :: ds ∧ d.isDigit = true := by
  have hdigits := isDigit_toDigits n
  have hne : Nat.toDigits 10 n ≠ [] := List.ne_nil_of_length_pos Nat.length_toDigits_pos
  obtain ⟨d, ds, heq⟩ := List.exists_cons_of_ne_nil hne
  exact ⟨d, ds, heq, hdigits d (heq ▸ List.mem_cons_self)⟩

/-- Digits are read as far as they go, so no further digit may stand behind a number. -/
theorem natural?_toDigits (n : Nat) (hrest : NoDigit rest) :
    natural? (Nat.toDigits 10 n ++ rest) = some (n, rest) := by
  have hne : Nat.toDigits 10 n ≠ [] := List.ne_nil_of_length_pos Nat.length_toDigits_pos
  -- Only zero itself begins with a zero.
  have hzero : ¬ ((Nat.toDigits 10 n).head? = some '0' ∧ Nat.toDigits 10 n ≠ ['0']) := by
    rintro ⟨hhead, hmore⟩
    rcases Nat.eq_zero_or_pos n with rfl | hpos
    · exact hmore rfl
    · exact Decimal.head_natDigits hpos hhead
  have hvalue : Decimal.digitsValue (Nat.toDigits 10 n) = n := Decimal.digitsValue_natDigits n
  dsimp only [natural?]
  rw [List.takeWhile_append_of_pos (isDigit_toDigits n),
    List.dropWhile_append_of_pos (isDigit_toDigits n), takeWhile_of_noDigit hrest,
    dropWhile_of_noDigit hrest, List.append_nil, if_neg (not_or.2 ⟨hne, hzero⟩), hvalue]

theorem number?_integer (n : Int) (hrest : NoDigit rest) :
    number? (integer n ++ rest) = some (n, rest) := by
  by_cases hn : n < 0
  · have habs : -(n.natAbs : Int) = n := by omega
    rw [integer, if_pos hn, List.cons_append, number?, natural?_toDigits _ hrest]
    simp only [Option.map_some, habs]
  · have habs : (n.natAbs : Int) = n := by omega
    rw [integer, if_neg hn, number?, natural?_toDigits _ hrest]
    · simp only [Option.map_some, habs]
    · -- There is no sign: the text begins with a digit.
      intro behind hsign
      obtain ⟨d, ds, heq, hd⟩ := toDigits_cons n.natAbs
      rw [heq, List.cons_append, List.cons.injEq] at hsign
      have hminus : Char.isDigit '-' = false := rfl
      exact Decimal.Digits.ne_of_isDigit hminus hd hsign.1

theorem integer_cons (n : Int) : ∃ c cs, integer n = c :: cs ∧ (c = '-' ∨ c.isDigit = true) := by
  obtain ⟨d, ds, heq, hd⟩ := toDigits_cons n.natAbs
  by_cases hn : n < 0
  · exact ⟨'-', _, if_pos hn, .inl rfl⟩
  · exact ⟨d, ds, (if_neg hn).trans heq, .inr hd⟩

theorem lexemes?_integer (n : Int) (hrest : NoDigit rest) :
    lexemes? (integer n ++ rest) = (lexemes? rest).map (.number n :: ·) := by
  have hnumber := number?_integer n hrest
  obtain ⟨c, cs, heq, hc⟩ := integer_cons n
  -- What begins a number begins nothing else.
  have hne : ∀ mark : Char, mark ≠ '-' → mark.isDigit = false → c ≠ mark := by
    intro mark hminus hmark
    rcases hc with rfl | hc
    · exact hminus.symm
    · exact Decimal.Digits.ne_of_isDigit hmark hc
  rw [heq, List.cons_append] at hnumber ⊢
  apply lexemes?_of_lexeme?
  · simp [isBlank, hne]
  · have hmark : mark? c = none := by simp [mark?, hne]
    rw [lexeme?, hmark]
    dsimp only
    rw [if_neg (hne '\x22' (by decide) rfl), if_pos hc, hnumber]
    rfl

theorem lexemes?_word {word : List Char} (h : (word, l) ∈ words) (rest : List Char) :
    lexemes? (word ++ rest) = (lexemes? rest).map (l :: ·) := by
  simp only [words, List.mem_cons, Prod.mk.injEq, List.not_mem_nil, or_false] at h
  rcases h with ⟨rfl, rfl⟩ | ⟨rfl, rfl⟩ | ⟨rfl, rfl⟩
  all_goals exact lexemes?_of_lexeme? rfl rfl

/-! ## The lexemes of a value -/

mutual

/-- The lexemes of a value. -/
def lexemes : Json → List Lexeme
  | .null => [.null]
  | .bool b => [.bool b]
  | .number n => [.number n]
  | .string s => [.string s]
  | .array [] => [.openArray, .closeArray]
  | .array (item :: rest) => .openArray :: (lexemes item ++ lexemesItems rest)
  | .object [] => [.openObject, .closeObject]
  | .object ((name, value) :: rest) =>
    .openObject :: .string name :: .colon :: (lexemes value ++ lexemesMembers rest)

/-- The lexemes of the items after the first, and of the end. -/
def lexemesItems : List Json → List Lexeme
  | [] => [.closeArray]
  | item :: rest => .comma :: (lexemes item ++ lexemesItems rest)

/-- The lexemes of the members after the first, and of the end. -/
def lexemesMembers : List (String × Json) → List Lexeme
  | [] => [.closeObject]
  | (name, value) :: rest =>
    .comma :: .string name :: .colon :: (lexemes value ++ lexemesMembers rest)

end

/-- To prove something of all values, prove it of each from what it is made of. -/
@[elab_as_elim]
theorem induct {P : Json → Prop} (null : P .null) (bool : ∀ b, P (.bool b))
    (number : ∀ n, P (.number n)) (string : ∀ s, P (.string s))
    (array : ∀ items, (∀ j ∈ items, P j) → P (.array items))
    (object : ∀ members, (∀ m ∈ members, P m.2) → P (.object members)) (j : Json) : P j := by
  refine @Json.rec P (fun js => ∀ j ∈ js, P j) (fun ms => ∀ m ∈ ms, P m.2) (fun m => P m.2)
    null bool number string array object ?_ ?_ ?_ ?_ ?_ j
  · intro j hj
    cases hj
  · intro head tail hhead htail j hj
    rcases List.mem_cons.1 hj with rfl | hj
    · exact hhead
    · exact htail j hj
  · intro m hm
    cases hm
  · intro head tail hhead htail m hm
    rcases List.mem_cons.1 hm with rfl | hm
    · exact hhead
    · exact htail m hm
  · intro name value hvalue
    exact hvalue

/-- The lexemes of a member. -/
def lexemesMember (member : String × Json) : List Lexeme :=
  .string member.1 :: .colon :: member.2.lexemes

theorem lexemesItems_eq (items : List Json) :
    lexemesItems items = items.flatMap (fun j => .comma :: j.lexemes) ++ [.closeArray] := by
  induction items with
  | nil => rw [lexemesItems, List.flatMap_nil, List.nil_append]
  | cons item rest ih =>
    rw [lexemesItems, List.flatMap_cons, ih, List.cons_append, List.cons_append, List.append_assoc]

theorem lexemesMembers_eq (members : List (String × Json)) :
    lexemesMembers members = members.flatMap (fun m => .comma :: lexemesMember m) ++
      [.closeObject] := by
  induction members with
  | nil => rw [lexemesMembers, List.flatMap_nil, List.nil_append]
  | cons member rest ih =>
    rw [lexemesMembers, List.flatMap_cons, ih, lexemesMember]
    simp only [List.cons_append, List.append_assoc]

/-! ## Written values -/

/-- The text is cut into these lexemes, whatever follows it but a digit. -/
def Cuts (text : List Char) (ls : List Lexeme) : Prop :=
  ∀ rest, NoDigit rest → lexemes? (text ++ rest) = (lexemes? rest).map (ls ++ ·)

theorem cuts_null : Cuts "null".toList [.null] :=
  fun rest _ => lexemes?_word (List.mem_of_elem_eq_true rfl) rest

theorem cuts_truth (b : Bool) : Cuts (truth b) [.bool b] := by
  intro rest _
  cases b with
  | true => exact lexemes?_word (List.mem_of_elem_eq_true rfl) rest
  | false => exact lexemes?_word (List.mem_of_elem_eq_true rfl) rest

theorem cuts_integer (n : Int) : Cuts (integer n) [.number n] :=
  fun _ hrest => lexemes?_integer n hrest

theorem cuts_quote (s : String) : Cuts (quote s) [.string s] := fun rest _ => lexemes?_quote s rest

/-- Pieces that each have a comma and a gap in front. -/
theorem cuts_flatMap {α : Type} {f : α → List Char} {g : α → List Lexeme} {gap : List Char}
    {xs : List α} (hgap : Blanks gap) (h : ∀ x ∈ xs, Cuts (f x) (g x)) :
    Cuts (xs.flatMap fun x => ',' :: (gap ++ f x)) (xs.flatMap fun x => .comma :: g x) := by
  intro rest hrest
  induction xs with
  | nil => simp
  | cons x xs ih =>
    -- The piece is followed by a comma or by what follows the last piece, and neither is a digit.
    have hx := h x List.mem_cons_self _ (noDigit_flatMap (fun x => gap ++ f x) xs hrest)
    have hxs := ih fun y hy => h y (List.mem_cons_of_mem x hy)
    rw [List.flatMap_cons, List.flatMap_cons, List.append_assoc, List.cons_append,
      lexemes?_mark rfl, List.append_assoc, lexemes?_blanks hgap, hx, hxs]
    simp only [Option.map_map]
    congr 1
    funext ls
    simp [List.append_assoc]

/-- Pieces between brackets, with the same gap in front of each and one behind the last. -/
theorem cuts_enclosed {α : Type} {f : α → List Char} {g : α → List Lexeme} {lo lc : Lexeme}
    {gap last : List Char} {x : α} {xs : List α} (opening closing : Char)
    (ho : mark? opening = some lo) (hc : mark? closing = some lc)
    (hclosing : closing.isDigit = false) (hgap : Blanks gap) (hlast : Blanks last)
    (h : ∀ y ∈ x :: xs, Cuts (f y) (g y)) :
    Cuts (opening :: (gap ++ f x ++ (xs.flatMap fun y => ',' :: (gap ++ f y)) ++ last ++ [closing]))
      (lo :: (g x ++ ((xs.flatMap fun y => .comma :: g y) ++ [lc]))) := by
  intro rest _
  have hend : NoDigit (last ++ closing :: rest) := hlast.noDigit (noDigit_cons hclosing rest)
  have hx := h x List.mem_cons_self _ (noDigit_flatMap (fun y => gap ++ f y) xs hend)
  have hxs := cuts_flatMap hgap (fun y hy => h y (List.mem_cons_of_mem x hy)) _ hend
  rw [lexemes?_blanks hlast, lexemes?_mark hc] at hxs
  simp only [List.cons_append, List.append_assoc, List.nil_append]
  rw [lexemes?_mark ho, lexemes?_blanks hgap, hx, hxs]
  simp only [Option.map_map]
  rfl

/-- A member on one line. -/
def compactMember (member : String × Json) : List Char := quote member.1 ++ ':' :: compact member.2

/-- On one line the gap in front of an item is empty. -/
theorem compactItems_cons (item : Json) (rest : List Json) :
    compactItems (item :: rest) =
      compact item ++ rest.flatMap (fun j => ',' :: ([] ++ compact j)) := by
  induction rest generalizing item with
  | nil => rw [compactItems, List.flatMap_nil, List.append_nil]
  | cons next rest ih =>
    rw [compactItems, ih, List.flatMap_cons]
    · rfl
    · exact List.cons_ne_nil next rest

theorem compactMembers_cons (member : String × Json) (rest : List (String × Json)) :
    compactMembers (member :: rest) =
      compactMember member ++ rest.flatMap (fun m => ',' :: ([] ++ compactMember m)) := by
  induction rest generalizing member with
  | nil => rw [compactMembers, List.flatMap_nil, List.append_nil, compactMember]
  | cons next rest ih =>
    rw [compactMembers, ih, List.flatMap_cons]
    · simp only [compactMember, List.append_assoc, List.cons_append, List.nil_append]
    · exact List.cons_ne_nil next rest

/-- A member is its name, a colon and its value, with any gap behind the colon. -/
theorem cuts_member {text : List Char} {member : String × Json} {gap : List Char}
    (hgap : Blanks gap) (h : Cuts text member.2.lexemes) :
    Cuts (quote member.1 ++ ':' :: (gap ++ text)) (lexemesMember member) := by
  intro rest hrest
  rw [List.append_assoc, lexemes?_quote, List.cons_append, lexemes?_mark rfl, List.append_assoc,
    lexemes?_blanks hgap, h rest hrest]
  simp only [Option.map_map]
  rfl

theorem cuts_empty {opening closing : Char} {lo lc : Lexeme} (ho : mark? opening = some lo)
    (hc : mark? closing = some lc) : Cuts [opening, closing] [lo, lc] := by
  intro rest _
  rw [List.cons_append, List.singleton_append, lexemes?_mark ho, lexemes?_mark hc, Option.map_map]
  rfl

/-- A value on one line falls into its lexemes. -/
theorem cuts_compact (j : Json) : Cuts j.compact j.lexemes := by
  induction j using induct with
  | null =>
    rw [compact, lexemes]
    exact cuts_null
  | bool b =>
    rw [compact, lexemes]
    exact cuts_truth b
  | number n =>
    rw [compact, lexemes]
    exact cuts_integer n
  | string s =>
    rw [compact, lexemes]
    exact cuts_quote s
  | array items ih =>
    cases items with
    | nil =>
      rw [compact, compactItems, lexemes]
      exact cuts_empty rfl rfl
    | cons item rest =>
      rw [compact, compactItems_cons, lexemes, lexemesItems_eq]
      have h := cuts_enclosed '[' ']' rfl rfl rfl blanks_nil blanks_nil ih
      rwa [List.nil_append, List.append_nil] at h
  | object members ih =>
    cases members with
    | nil =>
      rw [compact, compactMembers, lexemes]
      exact cuts_empty rfl rfl
    | cons member rest =>
      rw [compact, compactMembers_cons, lexemes, lexemesMembers_eq]
      have h := cuts_enclosed '\x7b' '\x7d' rfl rfl rfl blanks_nil blanks_nil fun m hm =>
        cuts_member blanks_nil (ih m hm)
      rwa [List.nil_append, List.append_nil] at h

/-- A member on a line of its own. -/
def prettyMember (depth : Nat) (member : String × Json) : List Char :=
  quote member.1 ++ ':' :: ' ' :: pretty depth member.2

theorem prettyItems_eq (depth : Nat) (items : List Json) :
    prettyItems depth items = items.flatMap fun j => ',' :: (newline depth ++ pretty depth j) := by
  induction items with
  | nil => rw [prettyItems, List.flatMap_nil]
  | cons item rest ih => rw [prettyItems, List.flatMap_cons, ih, List.cons_append]

theorem prettyMembers_eq (depth : Nat) (members : List (String × Json)) :
    prettyMembers depth members =
      members.flatMap fun m => ',' :: (newline depth ++ prettyMember depth m) := by
  induction members with
  | nil => rw [prettyMembers, List.flatMap_nil]
  | cons member rest ih =>
    rw [prettyMembers, List.flatMap_cons, ih, prettyMember]
    simp only [List.append_assoc, List.cons_append]

/-- A value over several lines falls into the same lexemes. -/
theorem cuts_pretty (depth : Nat) (j : Json) : Cuts (pretty depth j) j.lexemes := by
  induction j using induct generalizing depth with
  | null =>
    rw [pretty, lexemes]
    exact cuts_null
  | bool b =>
    rw [pretty, lexemes]
    exact cuts_truth b
  | number n =>
    rw [pretty, lexemes]
    exact cuts_integer n
  | string s =>
    rw [pretty, lexemes]
    exact cuts_quote s
  | array items ih =>
    cases items with
    | nil =>
      rw [pretty, lexemes]
      exact cuts_empty rfl rfl
    | cons item rest =>
      rw [pretty, prettyItems_eq, lexemes, lexemesItems_eq]
      exact cuts_enclosed '[' ']' rfl rfl rfl (blanks_newline _) (blanks_newline _)
        fun j hj => ih j hj (depth + 1)
  | object members ih =>
    cases members with
    | nil =>
      rw [pretty, lexemes]
      exact cuts_empty rfl rfl
    | cons member rest =>
      rw [pretty, prettyMembers_eq, lexemes, lexemesMembers_eq]
      have h :=
        cuts_enclosed '\x7b' '\x7d' rfl rfl rfl (blanks_newline (depth + 1)) (blanks_newline depth)
          fun m hm => cuts_member (blanks_one (c := ' ') rfl) (ih m hm (depth + 1))
      simpa only [prettyMember, lexemesMember, List.append_assoc, List.cons_append,
        List.nil_append] using h

end LineScript.Json
