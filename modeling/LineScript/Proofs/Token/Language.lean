import LineScript.Proofs.Token.Newline
import Mathlib.Computability.Language

/-!
# The languages of the tokens

What each kind of token looks like, said without the scanner: with single characters, concatenation
`*`, choice `+` and repetition `∗` of languages (`language`). A rule of the scanner only returns a
length. It is the length of the longest text of a language at the head of what is scanned (`Finds`),
so all matches of a text can be told from its languages (`mem_language_of_rule`, `exists_rule`).

Two kinds share a text only if one of them is the kind of names (`language_unique`): fixed words
differ from each other, and all other texts are told apart by their first characters.
-/

set_option autoImplicit false

open Computability

namespace LineScript

namespace Pattern

/-! ## Languages -/

/-- The texts of one character of a class. -/
def one (p : Char → Prop) : Language Char := {text | ∃ c, p c ∧ text = [c]}

/-- One text of a language or several of them in a row. -/
def oneOrMore (texts : Language Char) : Language Char := texts * texts∗

/-- What stands between quotes: characters other than the quote, and pairs of a backslash and any
character. Nothing of it is a newline. -/
def quotedPart (quote : Char) : Language Char :=
  one (fun c => c ≠ quote ∧ c ≠ '\\' ∧ c ≠ '\n') + {['\\']} * one (· ≠ '\n')

/-- Literals between quotes. -/
def quotedText (quote : Char) : Language Char := {[quote]} * (quotedPart quote)∗ * {[quote]}

/-- Literals between backticks. -/
def rawText : Language Char := {['\x60']} * (one (· ≠ '\x60'))∗ * {['\x60']}

/-- Digits. -/
def digits : Language Char := oneOrMore (one fun c => '0' ≤ c ∧ c ≤ '9')

/-- Digits, with or without a point and more digits behind them. -/
def numberText : Language Char := digits * (1 + {['.']} * digits)

/-- A letter or an underscore, and then letters, digits and underscores. -/
def nameText : Language Char :=
  one (fun c => 'A' ≤ c ∧ c ≤ 'Z' ∨ 'a' ≤ c ∧ c ≤ 'z' ∨ c = '_') *
    (one fun c => 'A' ≤ c ∧ c ≤ 'Z' ∨ 'a' ≤ c ∧ c ≤ 'z' ∨ '0' ≤ c ∧ c ≤ '9' ∨ c = '_')∗

/-- Blanks. -/
def blankText : Language Char := oneOrMore (one fun c => c = ' ' ∨ c = '\t' ∨ c = '\r')

/-- Comments. -/
def commentText : Language Char := {['/', '/']} * (one (· ≠ '\n'))∗

/-- The texts of a kind of token, or of what is skipped. -/
def language : Option TokenKind → Language Char
  | none => blankText + commentText
  | some .boolLiteral => {"true".toList} + {"false".toList}
  | some .charLiteral => quotedText '\x27'
  | some .dataLiteral => rawText
  | some .numberLiteral => numberText
  | some .stringLiteral => quotedText '\x22'
  | some .identifier => nameText
  | some .and => {"and".toList}
  | some .not => {"not".toList}
  | some .or => {"or".toList}
  | some .assign => {"=".toList}
  | some .colon => {":".toList}
  | some .comma => {",".toList}
  | some .braceClose => {"\x7d".toList}
  | some .braceOpen => {"\x7b".toList}
  | some .divide => {"/".toList}
  | some .divideAssign => {"/=".toList}
  | some .equal => {"==".toList}
  | some .greater => {">".toList}
  | some .greaterEqual => {">=".toList}
  | some .less => {"<".toList}
  | some .lessEqual => {"<=".toList}
  | some .minus => {"-".toList}
  | some .minusAssign => {"-=".toList}
  | some .notEqual => {"!=".toList}
  | some .parenClose => {")".toList}
  | some .parenOpen => {"(".toList}
  | some .plus => {"+".toList}
  | some .plusAssign => {"+=".toList}
  | some .remainder => {"%".toList}
  | some .remainderAssign => {"%=".toList}
  | some .bracketClose => {"]".toList}
  | some .bracketOpen => {"[".toList}
  | some .times => {"*".toList}
  | some .timesAssign => {"*=".toList}
  | some .newline => {['\n']}
  | some .endOfFile => 0

/-! ## What is in them -/

variable {p : Char → Prop} {texts : Language Char} {text rest : List Char}

/-- A repetition may be read from its front, which is how the scanner reads. -/
theorem append_mem_star (first : List Char) (hfirst : first ∈ texts) (hrest : rest ∈ texts∗) :
    first ++ rest ∈ texts∗ := by
  obtain ⟨chunks, rfl, hchunks⟩ := hrest
  exact ⟨first :: chunks, rfl, List.forall_mem_cons.2 ⟨hfirst, hchunks⟩⟩

theorem mem_singleton_mul {word : List Char} :
    text ∈ ({word} : Language Char) * texts ↔ ∃ rest ∈ texts, word ++ rest = text := by
  rw [Language.mem_mul]
  constructor
  · rintro ⟨_, rfl, hrest⟩
    exact hrest
  · exact fun h => ⟨word, rfl, h⟩

theorem mem_mul_singleton {word : List Char} :
    text ∈ texts * ({word} : Language Char) ↔ ∃ front ∈ texts, front ++ word = text := by
  rw [Language.mem_mul]
  constructor
  · rintro ⟨front, hfront, _, rfl, h⟩
    exact ⟨front, hfront, h⟩
  · rintro ⟨front, hfront, h⟩
    exact ⟨front, hfront, word, rfl, h⟩

theorem mem_one_star : text ∈ (one p)∗ ↔ ∀ c ∈ text, p c := by
  constructor
  · rintro ⟨chunks, rfl, hchunks⟩ c hc
    obtain ⟨chunk, hchunk, hmem⟩ := List.mem_flatten.1 hc
    obtain ⟨d, hd, rfl⟩ := hchunks chunk hchunk
    rwa [List.mem_singleton.1 hmem]
  · intro h
    induction text with
    | nil => exact Language.nil_mem_kstar _
    | cons c text ih =>
      obtain ⟨hc, htext⟩ := List.forall_mem_cons.1 h
      exact append_mem_star [c] ⟨c, hc, rfl⟩ (ih htext)

theorem mem_one_mul : text ∈ one p * texts ↔ ∃ c rest, p c ∧ rest ∈ texts ∧ text = c :: rest := by
  rw [Language.mem_mul]
  constructor
  · rintro ⟨_, ⟨c, hc, rfl⟩, rest, hrest, rfl⟩
    exact ⟨c, rest, hc, hrest, rfl⟩
  · rintro ⟨c, rest, hc, hrest, rfl⟩
    exact ⟨[c], ⟨c, hc, rfl⟩, rest, hrest, rfl⟩

theorem mem_oneOrMore : text ∈ oneOrMore (one p) ↔ text ≠ [] ∧ ∀ c ∈ text, p c := by
  rw [oneOrMore, mem_one_mul]
  constructor
  · rintro ⟨c, rest, hc, hrest, rfl⟩
    exact ⟨List.cons_ne_nil c rest, List.forall_mem_cons.2 ⟨hc, mem_one_star.1 hrest⟩⟩
  · rintro ⟨hne, h⟩
    obtain ⟨c, rest, rfl⟩ := List.exists_cons_of_ne_nil hne
    obtain ⟨hc, hrest⟩ := List.forall_mem_cons.1 h
    exact ⟨c, rest, hc, mem_one_star.2 hrest, rfl⟩

/-- A backslash goes with any character on its line. -/
theorem pair_mem_quotedPart {quote c : Char} (hc : c ≠ '\n') : ['\\', c] ∈ quotedPart quote :=
  Or.inr (mem_singleton_mul.2 ⟨[c], ⟨c, hc, rfl⟩, rfl⟩)

/-- A quoted literal is its quotes with parts in between, each a character or an escaped pair. -/
theorem mem_quotedText {quote : Char} :
    text ∈ quotedText quote ↔ ∃ body ∈ (quotedPart quote)∗, text = quote :: (body ++ [quote]) := by
  rw [quotedText, mem_mul_singleton]
  constructor
  · rintro ⟨_, hfront, rfl⟩
    obtain ⟨body, hbody, rfl⟩ := mem_singleton_mul.1 hfront
    exact ⟨body, hbody, rfl⟩
  · rintro ⟨body, hbody, rfl⟩
    exact ⟨quote :: body, mem_singleton_mul.2 ⟨body, hbody, rfl⟩, rfl⟩

theorem mem_rawText :
    text ∈ rawText ↔ ∃ body, '\x60' ∉ body ∧ text = '\x60' :: (body ++ ['\x60']) := by
  rw [rawText, mem_mul_singleton]
  constructor
  · rintro ⟨_, hfront, rfl⟩
    obtain ⟨body, hbody, rfl⟩ := mem_singleton_mul.1 hfront
    exact ⟨body, fun hmem => mem_one_star.1 hbody _ hmem rfl, rfl⟩
  · rintro ⟨body, hbody, rfl⟩
    have hstar : body ∈ (one (· ≠ '\x60'))∗ := mem_one_star.2 fun c hc heq => hbody (heq ▸ hc)
    exact ⟨'\x60' :: body, mem_singleton_mul.2 ⟨body, hstar, rfl⟩, rfl⟩

/-- A comment may end anywhere before the next newline; that it goes up to there is left to the
longest match. -/
theorem mem_commentText : text ∈ commentText ↔ ∃ body, '\n' ∉ body ∧ text = '/' :: '/' :: body := by
  rw [commentText, mem_singleton_mul]
  constructor
  · rintro ⟨body, hbody, rfl⟩
    exact ⟨body, fun hmem => mem_one_star.1 hbody _ hmem rfl, rfl⟩
  · rintro ⟨body, hbody, rfl⟩
    exact ⟨body, mem_one_star.2 fun c hc heq => hbody (heq ▸ hc), rfl⟩

/-! The classes of characters are those of the scanner. -/

theorem isBlank_iff {c : Char} : isBlank c = true ↔ c = ' ' ∨ c = '\t' ∨ c = '\r' := by
  simp [isBlank, or_assoc]

theorem isDigit_iff {c : Char} : c.isDigit = true ↔ '0' ≤ c ∧ c ≤ '9' := by
  simp only [Char.isDigit, Bool.and_eq_true, decide_eq_true_eq]
  rfl

theorem isAlpha_iff {c : Char} : c.isAlpha = true ↔ 'A' ≤ c ∧ c ≤ 'Z' ∨ 'a' ≤ c ∧ c ≤ 'z' := by
  have halpha : c.isAlpha = (decide ('A' ≤ c ∧ c ≤ 'Z') || decide ('a' ≤ c) && decide (c ≤ 'z')) :=
    rfl
  rw [halpha, Bool.or_eq_true, Bool.and_eq_true, decide_eq_true_iff, decide_eq_true_iff,
    decide_eq_true_iff]

theorem isNameStart_iff {c : Char} :
    isNameStart c = true ↔ 'A' ≤ c ∧ c ≤ 'Z' ∨ 'a' ≤ c ∧ c ≤ 'z' ∨ c = '_' := by
  rw [isNameStart, Bool.or_eq_true, isAlpha_iff, beq_iff_eq, or_assoc]

theorem isNamePart_iff {c : Char} :
    isNamePart c = true ↔ 'A' ≤ c ∧ c ≤ 'Z' ∨ 'a' ≤ c ∧ c ≤ 'z' ∨ '0' ≤ c ∧ c ≤ '9' ∨ c = '_' := by
  rw [isNamePart, Char.isAlphanum, Bool.or_eq_true, Bool.or_eq_true, isAlpha_iff, isDigit_iff,
    beq_iff_eq, or_assoc, or_assoc]

theorem mem_digits : text ∈ digits ↔ text ≠ [] ∧ ∀ c ∈ text, c.isDigit = true := by
  simp only [digits, mem_oneOrMore, isDigit_iff]

theorem mem_blankText : text ∈ blankText ↔ text ≠ [] ∧ ∀ c ∈ text, isBlank c = true := by
  simp only [blankText, mem_oneOrMore, isBlank_iff]

theorem mem_nameText :
    text ∈ nameText ↔
      ∃ c rest, isNameStart c = true ∧ (∀ d ∈ rest, isNamePart d = true) ∧ text = c :: rest := by
  simp only [nameText, mem_one_mul, mem_one_star, isNameStart_iff, isNamePart_iff]

/-- A point belongs to a number only with digits on both sides of it. -/
theorem mem_numberText : text ∈ numberText ↔
    ∃ whole ∈ digits, text = whole ∨ ∃ fraction ∈ digits, text = whole ++ '.' :: fraction := by
  rw [numberText, Language.mem_mul]
  constructor
  · rintro ⟨whole, hwhole, _, hnone | hfraction, rfl⟩
    · rw [(Language.mem_one _).1 hnone, List.append_nil]
      exact ⟨whole, hwhole, Or.inl rfl⟩
    · obtain ⟨fraction, hdigits, rfl⟩ := mem_singleton_mul.1 hfraction
      exact ⟨whole, hwhole, Or.inr ⟨fraction, hdigits, rfl⟩⟩
  · rintro ⟨whole, hwhole, rfl | ⟨fraction, hfraction, rfl⟩⟩
    · exact ⟨text, hwhole, [], Or.inl rfl, List.append_nil text⟩
    · exact ⟨whole, hwhole, _, Or.inr (mem_singleton_mul.2 ⟨fraction, hfraction, rfl⟩), rfl⟩

/-! ## What the rules find -/

/-- The length is that of the longest text of a language at the head of a text, and zero if there is
none. -/
structure Finds (length : List Char → Nat) (texts : Language Char) : Prop where
  take_mem : ∀ {text}, length text ≠ 0 → text.take (length text) ∈ texts
  le : ∀ {taken}, taken ∈ texts → ∀ rest, taken.length ≤ length (taken ++ rest)

/-- A word is there as a whole or not at all. -/
theorem finds_fixed (word : List Char) : Finds (fixed word) {word} where
  take_mem := by
    intro text h
    unfold fixed at h ⊢
    split at h
    · rename_i hword
      obtain ⟨rest, rfl⟩ := List.isPrefixOf_iff_prefix.1 hword
      rw [if_pos hword, List.take_left]
      rfl
    · exact absurd rfl h
  le := by
    intro taken h rest
    obtain rfl : taken = word := h
    rw [fixed, if_pos (List.isPrefixOf_iff_prefix.2 (List.prefix_append _ _))]

theorem take_takeWhile (q : Char → Bool) (text : List Char) :
    text.take (text.takeWhile q).length = text.takeWhile q :=
  (List.prefix_iff_eq_take.1 (List.takeWhile_prefix q)).symm

theorem length_le_takeWhile {q : Char → Bool} {taken : List Char} (h : ∀ c ∈ taken, q c = true)
    (rest : List Char) : taken.length ≤ ((taken ++ rest).takeWhile q).length := by
  rw [List.takeWhile_append_of_pos h, List.length_append]
  exact Nat.le_add_right _ _

theorem takeWhile_mem_digits {text : List Char} (h : (text.takeWhile Char.isDigit).length ≠ 0) :
    text.takeWhile Char.isDigit ∈ digits :=
  mem_digits.2 ⟨List.ne_nil_of_length_pos (Nat.pos_of_ne_zero h),
    fun _ hc => List.mem_takeWhile_imp hc⟩

theorem finds_blanks : Finds blanks blankText where
  take_mem := by
    intro text h
    rw [blanks, take_takeWhile]
    exact mem_blankText.2
      ⟨List.ne_nil_of_length_pos (Nat.pos_of_ne_zero h), fun _ hc => List.mem_takeWhile_imp hc⟩
  le := fun h rest => length_le_takeWhile (mem_blankText.1 h).2 rest

theorem finds_comment : Finds comment commentText where
  take_mem := by
    intro text h
    unfold comment at h ⊢
    split at h
    · rename_i rest
      refine mem_commentText.2 ⟨rest.takeWhile (· != '\n'), fun hmem => ?_, ?_⟩
      · simpa using List.mem_takeWhile_imp hmem
      · rw [Nat.add_comm, List.take_succ_cons, List.take_succ_cons, take_takeWhile]
    · exact absurd rfl h
  le := by
    intro taken h rest
    obtain ⟨body, hbody, rfl⟩ := mem_commentText.1 h
    have hle : body.length ≤ ((body ++ rest).takeWhile (· != '\n')).length :=
      length_le_takeWhile (fun c hc => by simpa using fun heq : c = '\n' => hbody (heq ▸ hc)) rest
    simp only [List.cons_append, comment, List.length_cons]
    omega

theorem finds_name : Finds name nameText where
  take_mem := by
    intro text h
    cases text with
    | nil => exact absurd rfl h
    | cons c rest =>
      rw [name] at h ⊢
      split at h
      · rename_i hc
        rw [if_pos hc, Nat.add_comm, List.take_succ_cons, take_takeWhile]
        exact mem_nameText.2 ⟨c, _, hc, fun d hd => List.mem_takeWhile_imp hd, rfl⟩
      · exact absurd rfl h
  le := by
    intro taken h rest
    obtain ⟨c, body, hc, hbody, rfl⟩ := mem_nameText.1 h
    have hle := length_le_takeWhile hbody rest
    rw [List.cons_append, name, if_pos hc, List.length_cons]
    omega

/-- A point without a digit behind it is left to what follows the number. -/
theorem finds_number : Finds number numberText where
  take_mem := by
    intro text h
    simp only [number] at h ⊢
    split at h
    · exact absurd rfl h
    · rename_i hwhole
      have hdigits := takeWhile_mem_digits hwhole
      rw [if_neg hwhole]
      split
      · rename_i rest hdrop
        split
        · rw [take_takeWhile]
          exact mem_numberText.2 ⟨_, hdigits, Or.inl rfl⟩
        · rename_i hfraction
          refine mem_numberText.2 ⟨_, hdigits, Or.inr ⟨_, takeWhile_mem_digits hfraction, ?_⟩⟩
          rw [Nat.add_assoc, List.take_add, take_takeWhile, hdrop, Nat.add_comm,
            List.take_succ_cons, take_takeWhile]
      · rw [take_takeWhile]
        exact mem_numberText.2 ⟨_, hdigits, Or.inl rfl⟩
  le := by
    intro taken h rest
    obtain ⟨whole, hwhole, rfl | ⟨fraction, hfraction, rfl⟩⟩ := mem_numberText.1 h
    · obtain ⟨hne, hdigits⟩ := mem_digits.1 hwhole
      have hle := length_le_takeWhile hdigits rest
      have hpos := List.length_pos_of_ne_nil hne
      simp only [number]
      rw [if_neg (by omega)]
      split
      · split <;> omega
      · omega
    · obtain ⟨hne, hdigits⟩ := mem_digits.1 hwhole
      obtain ⟨hfne, hfdigits⟩ := mem_digits.1 hfraction
      have hle := length_le_takeWhile hfdigits rest
      have hpos := List.length_pos_of_ne_nil hne
      have hfpos := List.length_pos_of_ne_nil hfne
      have htake : (whole ++ '.' :: fraction ++ rest).takeWhile Char.isDigit = whole := by
        rw [List.append_assoc, List.takeWhile_append_of_pos hdigits]
        simp
      simp only [number, htake]
      rw [if_neg (by omega), List.append_assoc, List.drop_left]
      simp only [List.cons_append, List.length_append, List.length_cons]
      rw [if_neg (by omega)]
      omega

theorem takeWhile_append_stop {stop : Char} {body : List Char} (h : stop ∉ body)
    (rest : List Char) : (body ++ stop :: rest).takeWhile (· != stop) = body := by
  rw [List.takeWhile_append_of_pos fun c hc => by simpa using fun heq : c = stop => h (heq ▸ hc)]
  simp

/-- Nothing is escaped in raw text, so it ends at the first backtick. -/
theorem finds_raw : Finds raw rawText where
  take_mem := by
    intro text h
    unfold raw at h ⊢
    split at h
    · rename_i rest
      split at h
      · rename_i hmem
        obtain ⟨body, more, rfl, hbody⟩ :=
          List.eq_append_cons_of_mem (show '\x60' ∈ rest by simpa using hmem)
        refine mem_rawText.2 ⟨body, hbody, ?_⟩
        rw [if_pos hmem, takeWhile_append_stop hbody, List.take_succ_cons,
          List.take_length_add_append]
        rfl
      · exact absurd rfl h
    · exact absurd rfl h
  le := by
    intro taken h rest
    obtain ⟨body, hbody, rfl⟩ := mem_rawText.1 h
    simp only [raw, List.cons_append, List.append_assoc, List.nil_append]
    rw [if_pos (by simp), takeWhile_append_stop hbody]
    simp

/-! Behind an opening quote the scanner looks for the first quote that is not part of a pair. -/

/-- In front of the quote that is found there are whole parts: no escaped pair is cut in two. -/
theorem closing?_mem {quote : Char} {text : List Char} {n : Nat}
    (h : closing? quote text = some n) :
    ∃ body ∈ (quotedPart quote)∗, text.take n = body ++ [quote] := by
  fun_induction closing? quote text generalizing n with
  | case1 => cases h
  | case2 => cases h
  | case3 c rest hc ih =>
    obtain ⟨m, hm, rfl⟩ := Option.map_eq_some_iff.1 h
    obtain ⟨body, hbody, htake⟩ := ih hm
    refine ⟨'\\' :: c :: body, append_mem_star _ (pair_mem_quotedPart hc) hbody, ?_⟩
    rw [List.take_succ_cons, List.take_succ_cons, htake]
    rfl
  | case4 rest =>
    obtain rfl := Option.some.inj h
    exact ⟨[], Language.nil_mem_kstar _, rfl⟩
  | case5 => cases h
  | case6 c rest _ hquote hstop ih =>
    obtain ⟨m, hm, rfl⟩ := Option.map_eq_some_iff.1 h
    obtain ⟨body, hbody, htake⟩ := ih hm
    obtain ⟨hnewline, hslash⟩ := not_or.1 hstop
    refine ⟨c :: body, append_mem_star [c] (Or.inl ⟨c, ⟨hquote, hslash, hnewline⟩, rfl⟩) hbody, ?_⟩
    rw [List.take_succ_cons, htake]
    rfl

/-- Of a body made of whole parts none holds the quote that closes it, so the first one behind it is
found. -/
theorem closing?_append {quote : Char} (hslash : quote ≠ '\\') {body : List Char}
    (h : body ∈ (quotedPart quote)∗) (rest : List Char) :
    closing? quote (body ++ quote :: rest) = some (body.length + 1) := by
  obtain ⟨chunks, rfl, hchunks⟩ := h
  induction chunks with
  | nil => simp [closing?, hslash]
  | cons chunk chunks ih =>
    obtain ⟨hchunk, hchunks⟩ := List.forall_mem_cons.1 hchunks
    have hrest := ih hchunks
    rcases hchunk with ⟨c, ⟨hquote, hc, hnewline⟩, rfl⟩ | hpair
    · simp [closing?, hquote, hc, hnewline, hrest]
    · obtain ⟨_, ⟨c, hc, rfl⟩, rfl⟩ := mem_singleton_mul.1 hpair
      simp [closing?, hc, hrest]

theorem finds_quoted {quote : Char} (hslash : quote ≠ '\\') :
    Finds (quoted quote) (quotedText quote) where
  take_mem := by
    intro text h
    cases text with
    | nil => exact absurd rfl h
    | cons c rest =>
      rw [quoted] at h ⊢
      split at h
      · rename_i hc
        subst hc
        rcases hclosing : closing? c rest with _ | n
        · rw [hclosing] at h
          exact absurd rfl h
        · obtain ⟨body, hbody, htake⟩ := closing?_mem hclosing
          refine mem_quotedText.2 ⟨body, hbody, ?_⟩
          rw [if_pos rfl, Option.map_some, Option.getD_some, List.take_succ_cons, htake]
      · exact absurd rfl h
  le := by
    intro taken h rest
    obtain ⟨body, hbody, rfl⟩ := mem_quotedText.1 h
    rw [List.cons_append, List.append_assoc, quoted, if_pos rfl, List.singleton_append,
      closing?_append hslash hbody]
    simp

/-! ## The table -/

/-- Fixed words and signs with their kinds. -/
def words : List (List Char × TokenKind) :=
  [("true".toList, .boolLiteral), ("false".toList, .boolLiteral)] ++
    spelled.map (fun kind => (kind.tag.toList, kind)) ++ [(['\n'], .newline)]

/-- The rules for all other texts with the languages that they find. -/
def classes : List (Rule × Language Char) :=
  [(⟨none, blanks⟩, blankText), (⟨none, comment⟩, commentText),
    (⟨some .charLiteral, quoted '\x27'⟩, quotedText '\x27'),
    (⟨some .dataLiteral, raw⟩, rawText), (⟨some .numberLiteral, number⟩, numberText),
    (⟨some .stringLiteral, quoted '\x22'⟩, quotedText '\x22'), (⟨some .identifier, name⟩, nameText)]

/-- Words come before classes, so a keyword is not taken for a name of the same length. -/
theorem rules_eq :
    rules = words.map (fun word => ⟨some word.2, fixed word.1⟩) ++ classes.map Prod.fst := rfl

/-- Each rule of a class finds the longest text in the language that stands beside it. -/
theorem finds_class {entry : Rule × Language Char} (h : entry ∈ classes) :
    Finds entry.1.length entry.2 := by
  simp only [classes, List.mem_cons, List.not_mem_nil, or_false] at h
  rcases h with rfl | rfl | rfl | rfl | rfl | rfl | rfl
  · exact finds_blanks
  · exact finds_comment
  · exact finds_quoted (by decide)
  · exact finds_raw
  · exact finds_number
  · exact finds_quoted (by decide)
  · exact finds_name

/-- A kind with one spelling has a language of one word. -/
theorem language_spelled {kind : TokenKind} (h : kind ∈ spelled) :
    language (some kind) = {kind.tag.toList} := by
  cases kind <;> first | rfl | exact absurd h (by decide)

/-- The words and the classes of the table are all texts of the languages. -/
theorem mem_language_iff {kind : Option TokenKind} {taken : List Char} :
    taken ∈ language kind ↔
      (∃ k, (taken, k) ∈ words ∧ kind = some k) ∨
        ∃ entry ∈ classes, entry.1.kind = kind ∧ taken ∈ entry.2 := by
  constructor
  · intro h
    rcases kind with _ | kind
    · rcases h with h | h
      · exact Or.inr ⟨(⟨none, blanks⟩, blankText), by simp [classes], rfl, h⟩
      · exact Or.inr ⟨(⟨none, comment⟩, commentText), by simp [classes], rfl, h⟩
    · by_cases hspelled : kind ∈ spelled
      · rw [language_spelled hspelled] at h
        obtain rfl : taken = kind.tag.toList := h
        have hword := List.mem_map_of_mem (f := fun k : TokenKind => (k.tag.toList, k)) hspelled
        exact Or.inl ⟨kind, List.mem_append_left _ (List.mem_append_right _ hword), rfl⟩
      · cases kind with
        | boolLiteral =>
          rcases h with h | h
          · obtain rfl : taken = "true".toList := h
            exact Or.inl ⟨.boolLiteral, by decide, rfl⟩
          · obtain rfl : taken = "false".toList := h
            exact Or.inl ⟨.boolLiteral, by decide, rfl⟩
        | charLiteral =>
          exact Or.inr ⟨(⟨_, quoted '\x27'⟩, quotedText '\x27'), by simp [classes], rfl, h⟩
        | dataLiteral => exact Or.inr ⟨(⟨_, raw⟩, rawText), by simp [classes], rfl, h⟩
        | numberLiteral => exact Or.inr ⟨(⟨_, number⟩, numberText), by simp [classes], rfl, h⟩
        | stringLiteral =>
          exact Or.inr ⟨(⟨_, quoted '\x22'⟩, quotedText '\x22'), by simp [classes], rfl, h⟩
        | identifier => exact Or.inr ⟨(⟨_, name⟩, nameText), by simp [classes], rfl, h⟩
        | newline =>
          obtain rfl : taken = ['\n'] := h
          exact Or.inl ⟨.newline, by decide, rfl⟩
        | endOfFile => cases h
        | _ => exact absurd (by decide) hspelled
  · rintro (⟨k, hword, rfl⟩ | ⟨entry, hentry, rfl, h⟩)
    · simp only [words, List.mem_append, List.mem_cons, List.mem_map, Prod.mk.injEq,
        List.not_mem_nil, or_false] at hword
      rcases hword with ((⟨rfl, rfl⟩ | ⟨rfl, rfl⟩) | ⟨kind, hspelled, rfl, rfl⟩) | ⟨rfl, rfl⟩
      · exact Or.inl rfl
      · exact Or.inr rfl
      · rw [language_spelled hspelled]
        rfl
      · rfl
    · simp only [classes, List.mem_cons, List.not_mem_nil, or_false] at hentry
      rcases hentry with rfl | rfl | rfl | rfl | rfl | rfl | rfl
      · exact Or.inl h
      · exact Or.inr h
      all_goals exact h

/-- What a rule matches is of its kind. -/
theorem mem_language_of_rule {rule : Rule} (h : rule ∈ rules) (hlength : rule.length text ≠ 0) :
    text.take (rule.length text) ∈ language rule.kind := by
  rw [rules_eq, List.mem_append, List.mem_map, List.mem_map] at h
  rcases h with ⟨⟨word, k⟩, hword, rfl⟩ | ⟨entry, hentry, rfl⟩
  · have htake : text.take (fixed word text) = word := (finds_fixed word).take_mem hlength
    exact mem_language_iff.2 (Or.inl ⟨k, by rwa [htake], rfl⟩)
  · exact mem_language_iff.2 (Or.inr ⟨entry, hentry, rfl, (finds_class hentry).take_mem hlength⟩)

/-- Every text of a kind is matched by a rule for it. -/
theorem exists_rule {kind : Option TokenKind} {taken : List Char} (h : taken ∈ language kind)
    (rest : List Char) :
    ∃ rule ∈ rules, rule.kind = kind ∧ taken.length ≤ rule.length (taken ++ rest) := by
  rw [rules_eq]
  rcases mem_language_iff.1 h with ⟨k, hword, rfl⟩ | ⟨entry, hentry, rfl, htaken⟩
  · exact ⟨_, List.mem_append_left _ (List.mem_map_of_mem hword), rfl,
      (finds_fixed taken).le rfl rest⟩
  · exact ⟨_, List.mem_append_right _ (List.mem_map_of_mem hentry), rfl,
      (finds_class hentry).le htaken rest⟩

/-! ## One kind for each text -/

/-- The kind of a text that is no fixed word, by its first character. -/
def kindOf : List Char → Option TokenKind
  | [] => none
  | c :: _ =>
    if c = '\x27' then some .charLiteral
    else if c = '\x60' then some .dataLiteral
    else if c = '\x22' then some .stringLiteral
    else if c.isDigit then some .numberLiteral
    else if isNameStart c then some .identifier
    else none

theorem kindOf_digit {c : Char} (hc : c.isDigit = true) (rest : List Char) :
    kindOf (c :: rest) = some .numberLiteral := by
  have hquote : c ≠ '\x27' ∧ c ≠ '\x60' ∧ c ≠ '\x22' := by
    refine ⟨?_, ?_, ?_⟩ <;> (rintro rfl; cases hc)
  rw [kindOf, if_neg hquote.1, if_neg hquote.2.1, if_neg hquote.2.2, if_pos hc]

theorem kindOf_nameStart {c : Char} (hc : isNameStart c = true) (rest : List Char) :
    kindOf (c :: rest) = some .identifier := by
  have hquote : c ≠ '\x27' ∧ c ≠ '\x60' ∧ c ≠ '\x22' := by
    refine ⟨?_, ?_, ?_⟩ <;> (rintro rfl; cases hc)
  have hdigit : ¬ c.isDigit = true := by
    intro hdigit
    obtain ⟨_, hle⟩ := isDigit_iff.1 hdigit
    rcases isNameStart_iff.1 hc with ⟨hge, _⟩ | ⟨hge, _⟩ | rfl
    · exact absurd (Char.le_trans hge hle) (by decide)
    · exact absurd (Char.le_trans hge hle) (by decide)
    · cases hdigit
  rw [kindOf, if_neg hquote.1, if_neg hquote.2.1, if_neg hquote.2.2, if_neg hdigit, if_pos hc]

/-- The classes differ in their first character already. -/
theorem kindOf_class {entry : Rule × Language Char} (h : entry ∈ classes) {taken : List Char}
    (htaken : taken ∈ entry.2) : kindOf taken = entry.1.kind := by
  simp only [classes, List.mem_cons, List.not_mem_nil, or_false] at h
  rcases h with rfl | rfl | rfl | rfl | rfl | rfl | rfl
  · obtain ⟨hne, hblank⟩ := mem_blankText.1 htaken
    obtain ⟨c, rest, rfl⟩ := List.exists_cons_of_ne_nil hne
    rcases isBlank_iff.1 (hblank c List.mem_cons_self) with rfl | rfl | rfl <;> rfl
  · obtain ⟨body, _, rfl⟩ := mem_commentText.1 htaken
    rfl
  · obtain ⟨body, _, rfl⟩ := mem_quotedText.1 htaken
    rfl
  · obtain ⟨body, _, rfl⟩ := mem_rawText.1 htaken
    rfl
  · obtain ⟨whole, hwhole, htext⟩ := mem_numberText.1 htaken
    obtain ⟨hne, hdigits⟩ := mem_digits.1 hwhole
    obtain ⟨c, rest, rfl⟩ := List.exists_cons_of_ne_nil hne
    have hc := hdigits c List.mem_cons_self
    rcases htext with rfl | ⟨fraction, _, rfl⟩ <;> exact kindOf_digit hc _
  · obtain ⟨body, _, rfl⟩ := mem_quotedText.1 htaken
    rfl
  · obtain ⟨c, rest, hc, _, rfl⟩ := mem_nameText.1 htaken
    exact kindOf_nameStart hc rest

/-- No two words are the same. -/
theorem words_unique : ∀ a ∈ words, ∀ b ∈ words, a.1 = b.1 → a.2 = b.2 := by decide

/-- No word is of another class than the names. -/
theorem words_not_class :
    ∀ word ∈ words, ∀ entry ∈ classes.map Prod.fst,
      entry.kind = some .identifier ∨ entry.length word.1 < word.1.length := by
  decide

/-- A text has two kinds only if one of them is that of names. -/
theorem language_unique {kind kind' : Option TokenKind} {taken : List Char}
    (h : taken ∈ language kind) (h' : taken ∈ language kind') :
    kind' = kind ∨ kind = some .identifier ∨ kind' = some .identifier := by
  have hclass : ∀ {k entry}, (taken, k) ∈ words → entry ∈ classes → taken ∈ entry.2 →
      entry.1.kind = some .identifier := by
    intro k entry hword hentry htaken
    have hle := (finds_class hentry).le htaken []
    rw [List.append_nil] at hle
    exact (words_not_class _ hword _ (List.mem_map_of_mem hentry)).resolve_right (Nat.not_lt.2 hle)
  rcases mem_language_iff.1 h with ⟨k, hword, rfl⟩ | ⟨entry, hentry, rfl, htaken⟩
  · rcases mem_language_iff.1 h' with ⟨k', hword', rfl⟩ | ⟨entry', hentry', rfl, htaken'⟩
    · exact Or.inl (congrArg some (words_unique _ hword' _ hword rfl))
    · exact Or.inr (Or.inr (hclass hword hentry' htaken'))
  · rcases mem_language_iff.1 h' with ⟨k', hword', rfl⟩ | ⟨entry', hentry', rfl, htaken'⟩
    · exact Or.inr (Or.inl (hclass hword' hentry htaken))
    · exact Or.inl ((kindOf_class hentry' htaken').symm.trans (kindOf_class hentry htaken))

end Pattern

end LineScript
