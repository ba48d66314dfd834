import LineScript.Text.Span

/-!
# Tokens

The words of the language. A token keeps the text it was read from (for quoted literals the text
between the quotes), the place it stood at, and whether a line ends after it. Line ends are not
tokens of their own: layout matters only through that flag.
-/

set_option autoImplicit false

namespace LineScript

/-- The kinds of token. -/
inductive TokenKind where
  | boolLiteral
  | charLiteral
  | dataLiteral
  | numberLiteral
  | stringLiteral
  | identifier
  | and
  | not
  | or
  | assign
  | colon
  | comma
  | braceClose
  | braceOpen
  | divide
  | divideAssign
  | equal
  | greater
  | greaterEqual
  | less
  | lessEqual
  | minus
  | minusAssign
  | notEqual
  | parenClose
  | parenOpen
  | plus
  | plusAssign
  | remainder
  | remainderAssign
  | bracketClose
  | bracketOpen
  | times
  | timesAssign
  | newline
  | endOfFile
deriving DecidableEq, Inhabited

namespace TokenKind

/-- The name of a kind in messages: fixed words and signs stand for themselves. -/
def tag : TokenKind → String
  | .boolLiteral => "bool literal"
  | .charLiteral => "char literal"
  | .dataLiteral => "data literal"
  | .numberLiteral => "number literal"
  | .stringLiteral => "string literal"
  | .identifier => "identifier"
  | .and => "and"
  | .not => "not"
  | .or => "or"
  | .assign => "="
  | .colon => ":"
  | .comma => ","
  | .braceClose => "\x7d"
  | .braceOpen => "\x7b"
  | .divide => "/"
  | .divideAssign => "/="
  | .equal => "=="
  | .greater => ">"
  | .greaterEqual => ">="
  | .less => "<"
  | .lessEqual => "<="
  | .minus => "-"
  | .minusAssign => "-="
  | .notEqual => "!="
  | .parenClose => ")"
  | .parenOpen => "("
  | .plus => "+"
  | .plusAssign => "+="
  | .remainder => "%"
  | .remainderAssign => "%="
  | .bracketClose => "]"
  | .bracketOpen => "["
  | .times => "*"
  | .timesAssign => "*="
  | .newline => "new line"
  | .endOfFile => "end of file"

/-- Every kind of token. -/
def all : List TokenKind :=
  [.boolLiteral, .charLiteral, .dataLiteral, .numberLiteral, .stringLiteral, .identifier,
    .and, .not, .or, .assign, .colon, .comma, .braceClose, .braceOpen, .divide, .divideAssign,
    .equal, .greater, .greaterEqual, .less, .lessEqual, .minus, .minusAssign, .notEqual,
    .parenClose, .parenOpen, .plus, .plusAssign, .remainder, .remainderAssign, .bracketClose,
    .bracketOpen, .times, .timesAssign, .newline, .endOfFile]

/-- The kind with a given name. -/
def ofTag? (tag : String) : Option TokenKind := all.find? (·.tag == tag)

/-- Literals that stand between quotes. -/
def isQuoted : TokenKind → Bool
  | .charLiteral | .dataLiteral | .stringLiteral => true
  | _ => false

end TokenKind

/-- A token of a source text. -/
structure Token where
  kind : TokenKind
  /-- The text of the token; for quoted literals what stands between the quotes, as written. -/
  value : String
  /-- A newline follows before the next token. -/
  endsLine : Bool
  span : Span
deriving DecidableEq, Inhabited

namespace Token

/-- The token that closes a text of `length` bytes. -/
def endOfFile (length : Nat) : Token := ⟨.endOfFile, "", true, Span.point length⟩

/-- A token in a message: names in double quotes, everything else by its kind. -/
def display (t : Token) : String :=
  match t.kind with
  | .endOfFile => t.kind.tag
  | .identifier => "\"" ++ t.value ++ "\""
  | _ => "'" ++ t.kind.tag ++ "'"

end Token

end LineScript
