import LineScript.Proofs.Grammar.Statements
import LineScript.Proofs.Token.Lines
import LineScript.Session

/-!
# Every literal is checked once

What a program notes on the way are the faults of its literal tokens, each once and in the order of
the source. A program that is read falls into lines up to the first end of file (`Lines`), and lines
are read with the faults of all tokens in them (`reads_statementsIn`), so nothing has to be said
again about the functions of the grammar.

What is wrong with one literal is said by the pieces of the text between its quotes (`Pieces`): from
left to right, a backslash goes with the character behind it. There is one way to cut a text like
that, and every piece stands for one character.
-/

set_option autoImplicit false

namespace LineScript

open TokenStream

/-! ## Text between quotes -/

/-- A piece of the text between quotes. -/
inductive Piece where
  /-- A character other than the backslash. -/
  | plain (c : Char)
  /-- A backslash with the character behind it. -/
  | pair (c : Char)
  /-- A backslash with nothing behind it. -/
  | lone
deriving DecidableEq

namespace Piece

/-- What a backslash can go with. -/
def escapable : List Char := ['n', 't', 'r', '0', '\\', '\x22', '\x27']

/-- The character that the piece stands for. -/
def character : Piece → Char
  | plain c => c
  | pair 'n' => '\n'
  | pair 't' => '\t'
  | pair 'r' => '\r'
  | pair '0' => '\x00'
  | pair c => c
  | lone => '\\'

/-- The character that the backslash of the piece cannot go with. -/
def invalid? : Piece → Option Char
  | pair c => if c ∈ escapable then none else some c
  | _ => none

theorem escape?_eq (c : Char) :
    escape? c = if c ∈ escapable then some (pair c).character else none := by
  unfold escape? escapable character
  grind

end Piece

/-- The text falls into the pieces, from left to right. -/
inductive Pieces : List Char → List Piece → Prop
  | nil : Pieces [] []
  | plain {c : Char} {text : List Char} {pieces : List Piece} (hc : c ≠ '\\')
      (h : Pieces text pieces) : Pieces (c :: text) (.plain c :: pieces)
  | pair {c : Char} {text : List Char} {pieces : List Piece} (h : Pieces text pieces) :
      Pieces ('\\' :: c :: text) (.pair c :: pieces)
  | lone : Pieces ['\\'] [.lone]

namespace Pieces

variable {text : List Char} {pieces others : List Piece}

/-- Reading a text from left to right cuts it in one way. -/
theorem existsUnique (text : List Char) : ∃! pieces, Pieces text pieces := by
  have hexists : ∃ pieces, Pieces text pieces := by
    induction text using unescape.induct with
    | case1 => exact ⟨[], .nil⟩
    | case2 c rest d hd ih =>
      obtain ⟨pieces, h⟩ := ih
      exact ⟨_, .pair h⟩
    | case3 c rest hd ih =>
      obtain ⟨pieces, h⟩ := ih
      exact ⟨_, .pair h⟩
    | case4 c rest hnot ih =>
      -- No pair begins here, so a backslash is the last character.
      by_cases hc : c = '\\'
      · subst hc
        cases rest with
        | nil => exact ⟨_, .lone⟩
        | cons d others => exact absurd rfl (hnot d others rfl)
      · obtain ⟨pieces, h⟩ := ih
        exact ⟨_, .plain hc h⟩
  obtain ⟨pieces, h⟩ := hexists
  -- The first two characters decide which piece comes first.
  refine ⟨pieces, h, fun others hothers => ?_⟩
  induction h generalizing others with
  | nil =>
    cases hothers
    rfl
  | plain hc _ ih =>
    cases hothers with
    | plain _ hrest => rw [ih _ hrest]
    | pair _ => exact absurd rfl hc
    | lone => exact absurd rfl hc
  | pair _ ih =>
    cases hothers with
    | plain hc _ => exact absurd rfl hc
    | pair hrest => rw [ih _ hrest]
  | lone =>
    cases hothers with
    | plain hc _ => exact absurd rfl hc
    | lone => rfl

/-- Each piece stands for one character, and is faulty or not by itself. -/
theorem unescape_eq (h : Pieces text pieces) :
    unescape text = ⟨pieces.map Piece.character, pieces.filterMap Piece.invalid?⟩ := by
  induction h with
  | nil => rfl
  | @plain c text pieces hc _ ih =>
    have hnot : ∀ (d : Char) (rest : List Char), c = '\\' → text = d :: rest → False :=
      fun _ _ heq _ => hc heq
    rw [unescape, ih]
    · rfl
    · exact hnot
  | @pair c text pieces _ ih =>
    rw [unescape, Piece.escape?_eq, ih]
    by_cases hc : c ∈ Piece.escapable
    · simp [Piece.invalid?, hc]
    · have hcharacter : (Piece.pair c).character = c := by
        simp only [Piece.escapable, List.mem_cons, List.not_mem_nil, or_false, not_or] at hc
        simp [Piece.character, hc]
      simp [Piece.invalid?, hc, hcharacter]
  | lone => rfl

end Pieces

/-! ## Literal tokens -/

namespace Token

/-- What is wrong with a literal whose text falls into the pieces. -/
def faultsBy (t : Token) (pieces : List Piece) : List LiteralFault :=
  let escapes := (pieces.filterMap Piece.invalid?).map LiteralFault.invalidEscape
  match t.kind with
  | .stringLiteral => escapes
  | .charLiteral =>
    escapes ++ if escapes = [] ∧ (pieces.map Piece.character).length ≠ 1 then [.charLength] else []
  | .numberLiteral =>
    match Decimal.parse t.value with
    | .ok _ => []
    | .error _ => [.numberRange]
  | _ => []

theorem faults_eq {t : Token} {pieces : List Piece} (h : Pieces t.value.toList pieces) :
    t.faults = (t.faultsBy pieces).map fun fault => ⟨t, fault⟩ := by
  unfold faults denoted? faultsBy
  rw [h.unescape_eq]
  cases t.kind with
  | numberLiteral =>
    cases Decimal.parse t.value with
    | ok n => rfl
    | error e => rfl
  | stringLiteral => exact (List.map_map).symm
  | charLiteral =>
    by_cases hescapes : pieces.filterMap Piece.invalid? = []
    · simp [hescapes]
    · simp [hescapes]
  | _ => rfl

theorem faults_of_not_literal {t : Token} (h : ¬ t.kind.isLiteral = true) : t.faults = [] :=
  faults_of_none (denoted?_of_not_literal (Bool.eq_false_iff.2 h))

theorem flatMap_faults_literals (tokens : List Token) :
    (tokens.filter fun t => t.kind.isLiteral).flatMap faults = tokens.flatMap faults := by
  induction tokens with
  | nil => rfl
  | cons t rest ih =>
    rw [List.filter_cons, List.flatMap_cons, ← ih]
    by_cases hliteral : t.kind.isLiteral = true
    · rw [if_pos hliteral, List.flatMap_cons]
    · rw [if_neg hliteral, faults_of_not_literal hliteral, List.nil_append]

end Token

/-! ## Programs -/

/-- What is noted on the way is what is wrong with the tokens in front of the first end of file. -/
theorem Program.errors_of_ofTokens {tokens : List Token} {p : Program}
    (h : (Program.ofTokens tokens).outcome = .ok p) :
    (Program.ofTokens tokens).errors =
      (tokens.takeWhile fun t => t.kind ≠ .endOfFile).flatMap Token.faults := by
  obtain ⟨stop, hlines, hkind⟩ := lines_of_statementsIn (fun k hk => kind_of_size_le (by omega)) h
  have hreads : Reads tokens 0 stop (Program.ofTokens tokens) p :=
    reads_statementsIn hlines hkind (by omega)
  -- The lines stop in front of an end of file, and no token in them is one.
  have hstop := findIdx_of_spells hlines.spells hkind
  rw [hreads.2, List.takeWhile_eq_take_findIdx_not]
  simp only [decide_not, Bool.not_not, hstop]
  rfl

theorem Program.errors_of_ofTokens_closed {body : List Token} {closing : Token} {p : Program}
    (hclosing : closing.kind = .endOfFile) (hbody : ∀ t ∈ body, t.kind ≠ .endOfFile)
    (h : (Program.ofTokens (body ++ [closing])).outcome = .ok p) :
    (Program.ofTokens (body ++ [closing])).errors = body.flatMap Token.faults := by
  rw [errors_of_ofTokens h, List.takeWhile_append_of_pos (fun t ht => decide_eq_true (hbody t ht))]
  simp [hclosing]

theorem Source.parse_eq_ok_iff {source : String} {p : Program} :
    Source.parse source = .ok p ↔ ∃ tokens, Token.scan source = .ok tokens ∧
      (Program.ofTokens tokens).outcome = .ok p ∧ (Program.ofTokens tokens).errors = [] := by
  unfold Source.parse
  cases hscan : Token.scan source with
  | error e => simp
  | ok tokens =>
    cases hread : (Program.ofTokens tokens).outcome with
    | error e => simp [hread]
    | ok q =>
      by_cases herrors : (Program.ofTokens tokens).errors = []
      · simp [hread, herrors]
      · simp [hread, herrors]

/-- All literals of a source stand in front of its end of file. -/
theorem Source.errors_eq_nil_iff {source : String} {tokens : List Token} {p : Program}
    (hscan : Token.scan source = .ok tokens) (hread : (Program.ofTokens tokens).outcome = .ok p) :
    (Program.ofTokens tokens).errors = [] ↔
      ∀ t ∈ tokens, t.kind.isLiteral = true → t.faults = [] := by
  obtain ⟨body, closing, rfl, hclosing, hbody⟩ := Token.scan_tokens hscan
  rw [Program.errors_of_ofTokens_closed hclosing hbody hread, List.flatMap_eq_nil_iff]
  constructor
  · intro h t ht hliteral
    rcases List.mem_append.1 ht with hmem | hmem
    · exact h t hmem
    · obtain rfl := List.mem_singleton.1 hmem
      rw [hclosing] at hliteral
      cases hliteral
  · intro h t ht
    by_cases hliteral : t.kind.isLiteral = true
    · exact h t (List.mem_append_left _ ht) hliteral
    · exact Token.faults_of_not_literal hliteral

/-- **Every literal is checked once.** A program that is read notes the faults of the literals in
front of the first end of file, one literal after the other. The text of a literal is cut in one
way, and of its pieces each escape without a meaning is a fault; a char without such an escape is
one if it does not stand for one character, a number if it is not one, and data and truth values
never are. So a source is read exactly if it can be scanned and its tokens can be read, and no
literal among them is faulty. -/
theorem Program.literals_checked_once (tokens : List Token) :
    (∀ p, (Program.ofTokens tokens).outcome = .ok p →
      (Program.ofTokens tokens).errors = ((tokens.takeWhile fun t => t.kind ≠ .endOfFile).filter
        fun t => t.kind.isLiteral).flatMap Token.faults) ∧
      (∀ t : Token, (∃! pieces, Pieces t.value.toList pieces) ∧
        ∀ pieces, Pieces t.value.toList pieces →
          t.faults = (t.faultsBy pieces).map fun fault => ⟨t, fault⟩) ∧
      ∀ source p, Source.parse source = .ok p ↔
        ∃ tokens, Token.scan source = .ok tokens ∧ (Program.ofTokens tokens).outcome = .ok p ∧
          ∀ t ∈ tokens, t.kind.isLiteral = true → t.faults = [] := by
  refine ⟨fun p h => ?_, fun t => ⟨Pieces.existsUnique _, fun pieces h => Token.faults_eq h⟩,
    fun source p => ?_⟩
  · rw [Program.errors_of_ofTokens h, Token.flatMap_faults_literals]
  · rw [Source.parse_eq_ok_iff]
    constructor
    · rintro ⟨tokens, hscan, hread, herrors⟩
      exact ⟨tokens, hscan, hread, (Source.errors_eq_nil_iff hscan hread).1 herrors⟩
    · rintro ⟨tokens, hscan, hread, hfaults⟩
      exact ⟨tokens, hscan, hread, (Source.errors_eq_nil_iff hscan hread).2 hfaults⟩

/-- The text `\q\\q` in a string. -/
def Token.escapedBackslash : Token := ⟨.stringLiteral, "\\q\\\\q", false, default⟩

/-- `["\q\\q", 'ab', '\z']`, and behind the end of the file `''`. -/
def Program.faultyLiterals : List Token :=
  [⟨.bracketOpen, "[", false, default⟩, Token.escapedBackslash, ⟨.comma, ",", false, default⟩,
    ⟨.charLiteral, "ab", false, default⟩, ⟨.comma, ",", false, default⟩,
    ⟨.charLiteral, "\\z", false, default⟩, ⟨.bracketClose, "]", true, default⟩,
    ⟨.endOfFile, "", true, default⟩, ⟨.charLiteral, "", true, default⟩]

set_option maxRecDepth 4096 in
/-- The second backslash of the string goes with the third one, so only the first `q` is a fault.
Nothing is noted of the literal behind the end of the file. -/
theorem Program.literals_checked_once_behindEnd :
    (∃ p, (Program.ofTokens faultyLiterals).outcome = .ok p ∧
      (Program.ofTokens faultyLiterals).errors.map LiteralError.fault =
        [.invalidEscape 'q', .charLength, .invalidEscape 'z']) ∧
    Pieces Token.escapedBackslash.value.toList [.pair 'q', .pair '\\', .plain 'q'] ∧
    Token.escapedBackslash.faults = [⟨Token.escapedBackslash, .invalidEscape 'q'⟩] ∧
    ∃ p, Source.parse "'\\n'" = .ok p := by
  have hpieces : Pieces Token.escapedBackslash.value.toList [.pair 'q', .pair '\\', .plain 'q'] :=
    .pair (.pair (.plain (by decide) .nil))
  refine ⟨⟨_, by with_unfolding_all rfl, ?_⟩, hpieces, ?_, ?_⟩
  · rw [(literals_checked_once faultyLiterals).1 _ (by with_unfolding_all rfl)]
    with_unfolding_all rfl
  · exact ((literals_checked_once faultyLiterals).2.1 Token.escapedBackslash).2 _ hpieces
  · have hscan : Token.scan "'\\n'" =
        .ok [⟨.charLiteral, "\\n", false, ⟨0, 4⟩⟩, ⟨.endOfFile, "", true, ⟨4, 4⟩⟩] := by
      with_unfolding_all rfl
    exact ⟨_, ((literals_checked_once faultyLiterals).2.2 _ _).2
      ⟨_, hscan, by with_unfolding_all rfl, by decide⟩⟩

end LineScript
