import LineScript.Token.Basic

/-!
# What tokens look like

Each rule of the table recognises one class of text and says how many characters its longest match
at the head of a text has; no class contains the empty text, so zero means that nothing matches.
Fixed words and signs come first: of two equally long matches the earlier rule wins, which is how a
keyword is preferred to a name. A rule without a token kind recognises text that is skipped.
-/

set_option autoImplicit false

namespace LineScript.Pattern

/-! ## Classes of text -/

/-- Blanks inside a line. -/
def isBlank (c : Char) : Bool := c == ' ' || c == '\t' || c == '\r'

/-- Characters that a name can start with. -/
def isNameStart (c : Char) : Bool := c.isAlpha || c == '_'

/-- Characters that a name can go on with. -/
def isNamePart (c : Char) : Bool := c.isAlphanum || c == '_'

/-- A fixed word or sign. -/
def fixed (word : List Char) (text : List Char) : Nat :=
  if word.isPrefixOf text then word.length else 0

/-- A run of blanks. -/
def blanks (text : List Char) : Nat := (text.takeWhile isBlank).length

/-- Two slashes and everything up to the end of the line. -/
def comment : List Char → Nat
  | '/' :: '/' :: rest => 2 + (rest.takeWhile (· != '\n')).length
  | _ => 0

/-- A letter or underscore, then letters, digits and underscores. -/
def name : List Char → Nat
  | c :: rest => if isNameStart c then 1 + (rest.takeWhile isNamePart).length else 0
  | [] => 0

/-- Digits, and a point with more digits if digits follow the point. -/
def number (text : List Char) : Nat :=
  let whole := (text.takeWhile Char.isDigit).length
  if whole = 0 then 0
  else
    match text.drop whole with
    | '.' :: rest =>
      let fraction := (rest.takeWhile Char.isDigit).length
      if fraction = 0 then whole else whole + 1 + fraction
    | _ => whole

/-- How far it is to just behind the closing quote, if there is one on this line. A backslash takes
the character after it along, whatever it is, but never a newline. -/
def closing? (quote : Char) : List Char → Option Nat
  | [] => none
  | '\\' :: c :: rest => if c = '\n' then none else (closing? quote rest).map (· + 2)
  | c :: rest =>
    if c = quote then some 1
    else if c = '\n' ∨ c = '\\' then none
    else (closing? quote rest).map (· + 1)

/-- A quoted literal with escapes, on one line. -/
def quoted (quote : Char) : List Char → Nat
  | c :: rest => if c = quote then ((closing? quote rest).map (· + 1)).getD 0 else 0
  | [] => 0

/-- A literal between backticks, over any number of lines. -/
def raw : List Char → Nat
  | '\x60' :: rest => if rest.contains '\x60' then (rest.takeWhile (· != '\x60')).length + 2 else 0
  | _ => 0

/-! ## The table -/

/-- A class of text and what it makes. -/
structure Rule where
  /-- The kind of token, or nothing if the text is skipped. -/
  kind : Option TokenKind
  /-- The length of the longest match at the head of a text. -/
  length : List Char → Nat

/-- Words and signs that are spelled like their names. -/
def spelled : List TokenKind :=
  [.and, .not, .or, .assign, .colon, .comma, .braceClose, .braceOpen, .divide, .divideAssign,
    .equal, .greater, .greaterEqual, .less, .lessEqual, .minus, .minusAssign, .notEqual,
    .parenClose, .parenOpen, .plus, .plusAssign, .remainder, .remainderAssign, .bracketClose,
    .bracketOpen, .times, .timesAssign]

/-- Every class of text, in order of preference. -/
def rules : List Rule :=
  [⟨some .boolLiteral, fixed "true".toList⟩, ⟨some .boolLiteral, fixed "false".toList⟩] ++
  spelled.map (fun kind => ⟨some kind, fixed kind.tag.toList⟩) ++
  [⟨some .newline, fixed ['\n']⟩,
    ⟨none, blanks⟩,
    ⟨none, comment⟩,
    ⟨some .charLiteral, quoted '\x27'⟩,
    ⟨some .dataLiteral, raw⟩,
    ⟨some .numberLiteral, number⟩,
    ⟨some .stringLiteral, quoted '\x22'⟩,
    ⟨some .identifier, name⟩]

/-! ## Choice -/

/-- A match at the head of a text; one of length zero is none. -/
structure Match where
  kind : Option TokenKind
  length : Nat

/-- The longer of two matches, the first if they are equally long. -/
def Match.better (best other : Match) : Match := if best.length < other.length then other else best

/-- The longest match of any rule. -/
def longest (text : List Char) : Match :=
  rules.foldl (fun best rule => best.better ⟨rule.kind, rule.length text⟩) ⟨none, 0⟩

/-- The characters of a text with which no rule matches that could still have become a match, and at
least the first. -/
def stuck : List Char → List Char
  | [] => []
  | c :: rest =>
    if c = '\x22' ∨ c = '\x27' then c :: rest.takeWhile (· != '\n')
    else if c = '\x60' then c :: rest
    else [c]

end LineScript.Pattern
