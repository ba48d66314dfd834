import LineScript.Token.Basic
import LineScript.Value.Basic

/-!
# Literals

What a literal token denotes, and what is wrong with it. A faulty literal still denotes a value, so
that the tree around it is complete and every other faulty literal is found as well.

In strings and chars a backslash and the character after it are read together. Seven such pairs
stand for one character; any other is a fault and stands for its second character.
-/

set_option autoImplicit false

namespace LineScript

/-- What can be wrong with a literal. -/
inductive LiteralFault where
  /-- A char literal does not hold exactly one character. -/
  | charLength
  /-- A backslash in front of a character that it cannot go with. -/
  | invalidEscape (escape : Char)
  /-- A number that cannot be represented. -/
  | numberRange
deriving DecidableEq

/-- A faulty literal. -/
structure LiteralError where
  token : Token
  fault : LiteralFault
deriving DecidableEq

namespace LiteralError

def span (e : LiteralError) : Span := e.token.span

/-- The error code. -/
def code (e : LiteralError) : String :=
  match e.fault with
  | .charLength => "OK-P002"
  | .invalidEscape _ => "OK-P003"
  | .numberRange => "OK-P004"

/-- The wording of the error. -/
def message (e : LiteralError) : String :=
  match e.fault with
  | .charLength => s!"char literal '{e.token.value}' must contain exactly one character"
  | .invalidEscape escape => s!"invalid escape sequence '\\{escape}' in {e.token.kind.tag}"
  | .numberRange => s!"number literal {e.token.value} is out of range"

end LiteralError

/-! ## Escapes -/

/-- The character that a backslash and `c` stand for. -/
def escape? (c : Char) : Option Char :=
  if c = 'n' then some '\n'
  else if c = 't' then some '\t'
  else if c = 'r' then some '\r'
  else if c = '0' then some '\x00'
  else if c = '\\' ∨ c = '\x22' ∨ c = '\x27' then some c
  else none

/-- Text with its escapes replaced, and the characters of the escapes that have no meaning. -/
structure Unescaped where
  text : List Char
  invalid : List Char

/-- Replaces escapes. A backslash at the very end stands for itself. -/
def unescape : List Char → Unescaped
  | [] => ⟨[], []⟩
  | '\\' :: c :: rest =>
    let u := unescape rest
    match escape? c with
    | some d => ⟨d :: u.text, u.invalid⟩
    | none => ⟨c :: u.text, c :: u.invalid⟩
  | c :: rest =>
    let u := unescape rest
    ⟨c :: u.text, u.invalid⟩

/-! ## Tokens -/

/-- The value of a literal token with the faults found in it. -/
structure Denoted where
  value : Value
  errors : List LiteralError

namespace Token

/-- What a literal token denotes; nothing if the token is no literal. -/
def denoted? (t : Token) : Option Denoted :=
  match t.kind with
  | .boolLiteral => some ⟨.bool (t.value == "true"), []⟩
  | .dataLiteral => some ⟨.data (Utf8.encode t.value), []⟩
  | .numberLiteral =>
    match Decimal.parse t.value with
    | .ok n => some ⟨.number n, []⟩
    | .error _ => some ⟨.number .zero, [⟨t, .numberRange⟩]⟩
  | .stringLiteral =>
    let u := unescape t.value.toList
    some ⟨.string (String.ofList u.text), u.invalid.map (fun c => ⟨t, .invalidEscape c⟩)⟩
  | .charLiteral =>
    let u := unescape t.value.toList
    -- A bad escape already explains the literal.
    let faults := if u.invalid = [] ∧ u.text.length ≠ 1 then [.charLength]
      else u.invalid.map LiteralFault.invalidEscape
    some ⟨.char (u.text.headD '\x00'), faults.map (fun fault => ⟨t, fault⟩)⟩
  | _ => none

end Token

end LineScript
