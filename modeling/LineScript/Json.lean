/-!
# JSON

Values with their members in order, and two ways to write them: on one line without blanks
(`Json.compact`), and over several lines with an indent of two (`Json.pretty`). Both share the text
of scalars. In strings the quote, the backslash and the characters below U+0020 are escaped, the
usual ones by a letter and the others by four hexadecimal digits; everything else stands as it is.
-/

set_option autoImplicit false

namespace LineScript

/-- A JSON value. Numbers are whole: no other kind is ever written. -/
inductive Json where
  | null
  | bool (b : Bool)
  | number (n : Int)
  | string (s : String)
  | array (items : List Json)
  | object (members : List (String × Json))
deriving Inhabited

namespace Json

/-- A natural number as a value. -/
def nat (n : Nat) : Json := .number n

/-! ## Scalars -/

/-- The two hexadecimal digits of a number below 256, in lower case. -/
def hexPair (n : Nat) : List Char := [Nat.digitChar (n / 16 % 16), Nat.digitChar (n % 16)]

/-- A character as it stands inside a string. -/
def escapeChar (c : Char) : List Char :=
  if c = '\x22' then ['\\', '\x22']
  else if c = '\\' then ['\\', '\\']
  else if c = '\n' then ['\\', 'n']
  else if c = '\r' then ['\\', 'r']
  else if c = '\t' then ['\\', 't']
  else if c = '\x08' then ['\\', 'b']
  else if c = '\x0c' then ['\\', 'f']
  else if c.toNat < 0x20 then '\\' :: 'u' :: '0' :: '0' :: hexPair c.toNat
  else [c]

/-- A quoted string. -/
def quote (s : String) : List Char := '\x22' :: (s.toList.flatMap escapeChar ++ ['\x22'])

/-- A whole number. -/
def integer (n : Int) : List Char :=
  if n < 0 then '-' :: Nat.toDigits 10 n.natAbs else Nat.toDigits 10 n.natAbs

/-- The word for a truth value. -/
def truth (b : Bool) : List Char := if b then "true".toList else "false".toList

/-! ## One line -/

mutual

/-- The value without any blanks. -/
def compact : Json → List Char
  | .null => "null".toList
  | .bool b => truth b
  | .number n => integer n
  | .string s => quote s
  | .array items => '[' :: (compactItems items ++ [']'])
  | .object members => '\x7b' :: (compactMembers members ++ ['\x7d'])

/-- Values with commas between them. -/
def compactItems : List Json → List Char
  | [] => []
  | [item] => compact item
  | item :: rest => compact item ++ ',' :: compactItems rest

/-- Members with commas between them. -/
def compactMembers : List (String × Json) → List Char
  | [] => []
  | [(name, value)] => quote name ++ ':' :: compact value
  | (name, value) :: rest => quote name ++ ':' :: (compact value ++ ',' :: compactMembers rest)

end

/-- The value on one line. -/
def render (j : Json) : String := String.ofList j.compact

/-! ## Several lines -/

/-- A line break and the indent of the next line. -/
def newline (depth : Nat) : List Char := '\n' :: List.replicate (2 * depth) ' '

mutual

/-- The value with every item and member on a line of its own; `depth` is the nesting of the line
that the value starts on. -/
def pretty (depth : Nat) : Json → List Char
  | .null => "null".toList
  | .bool b => truth b
  | .number n => integer n
  | .string s => quote s
  | .array [] => ['[', ']']
  | .array (item :: rest) =>
    '[' :: (newline (depth + 1) ++ pretty (depth + 1) item ++ prettyItems (depth + 1) rest ++
      newline depth ++ [']'])
  | .object [] => ['\x7b', '\x7d']
  | .object ((name, value) :: rest) =>
    '\x7b' :: (newline (depth + 1) ++ quote name ++ ':' :: ' ' :: pretty (depth + 1) value ++
      prettyMembers (depth + 1) rest ++ newline depth ++ ['\x7d'])

/-- The items after the first. -/
def prettyItems (depth : Nat) : List Json → List Char
  | [] => []
  | item :: rest => ',' :: (newline depth ++ pretty depth item ++ prettyItems depth rest)

/-- The members after the first. -/
def prettyMembers (depth : Nat) : List (String × Json) → List Char
  | [] => []
  | (name, value) :: rest =>
    ',' :: (newline depth ++ quote name ++
      ':' :: ' ' :: pretty depth value ++ prettyMembers depth rest)

end

/-- The value over several lines. -/
def renderPretty (j : Json) : String := String.ofList (pretty 0 j)

end Json

end LineScript
