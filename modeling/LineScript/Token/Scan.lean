import LineScript.Token.Pattern

/-!
# From text to tokens

The scanner takes the longest match at each position until the text is used up, and closes the list
with an end-of-file token. Newlines leave no token; they mark the token before them. Working from
the right makes that a plain recursion: what follows a token already says whether a newline comes
first.
-/

set_option autoImplicit false

namespace LineScript

/-- A place where no token can be read. -/
structure ScanError where
  position : Nat
  /-- The text that could still have become a token, and at least one character. -/
  snippet : String
deriving DecidableEq

namespace ScanError

/-- Advice by the character that could not be read. -/
def suggestion (e : ScanError) : String :=
  match e.snippet.toList with
  | '\x22' :: _ => "Close the string literal with '\"' on the same line."
  | '\x27' :: _ => "Close the char literal with a single quote on the same line."
  | '\x60' :: _ => "Close the data literal with a backtick."
  | '!' :: _ => "Use 'not' for logical negation; '!' is only valid in '!='."
  | '&' :: _ => "Use 'and' / 'or' for logical operators."
  | '|' :: _ => "Use 'and' / 'or' for logical operators."
  | _ => s!"Unexpected character(s): '{e.snippet}'."

/-- The wording of the error. -/
def message (e : ScanError) : String :=
  s!"Lex error at position {e.position}: '{e.snippet}'. {e.suggestion}"

end ScanError

namespace Token

/-- The tokens of a text, and whether a newline stands before the first of them. -/
structure Scanned where
  newline : Bool
  tokens : List Token

/-- The text that a token keeps: quoted literals lose their quotes. -/
def kept (kind : TokenKind) (taken : List Char) : String :=
  String.ofList (if kind.isQuoted then taken.tail.dropLast else taken)

/-- Puts a match in front of what follows it. -/
def attach (kind : Option TokenKind) (taken : List Char) (position : Nat)
    (rest : Scanned) : Scanned :=
  match kind with
  | none => rest
  | some .newline => { rest with newline := true }
  | some kind =>
    ⟨false,
      ⟨kind, kept kind taken, rest.newline, ⟨position, position + byteLength taken⟩⟩ :: rest.tokens⟩

/-- Scans text that begins at byte `position`. -/
def scanFrom (position : Nat) (text : List Char) : Except ScanError Scanned :=
  match text with
  | [] => .ok ⟨false, [Token.endOfFile position]⟩
  | c :: tail =>
    let best := Pattern.longest (c :: tail)
    if _h : best.length = 0 then
      .error ⟨position, String.ofList (Pattern.stuck (c :: tail))⟩
    else
      let taken := (c :: tail).take best.length
      match scanFrom (position + byteLength taken) ((c :: tail).drop best.length) with
      | .error e => .error e
      | .ok rest => .ok (attach best.kind taken position rest)
termination_by text.length
decreasing_by
  have taken : (Pattern.longest (c :: tail)).length ≠ 0 := _h
  simp only [List.length_drop, List.length_cons]
  omega

/-- The tokens of a source text, closed by an end-of-file token. -/
def scan (source : String) : Except ScanError (List Token) :=
  (scanFrom 0 source.toList).map Scanned.tokens

end Token

end LineScript
