import LineScript.Decimal.Text
import LineScript.Text.Utf8
import LineScript.Value.Kind
import LineScript.Value.Entries

/-!
# Values

The values of the language: numbers, truth values, strings, single characters, raw bytes, and arrays
and maps of values. A container carries the kind of its elements along; that tag never takes part in
equality or in the printed text.
-/

set_option autoImplicit false

namespace LineScript

/-- A value of the language. -/
inductive Value where
  | number (n : Decimal)
  | bool (b : Bool)
  | string (s : String)
  | char (c : Char)
  | data (bytes : List UInt8)
  | array (element : Kind) (items : List Value)
  | map (element : Kind) (entries : List (String × Value))
deriving Inhabited

namespace Value

/-- What the value is. -/
def kind : Value → Kind
  | .number _ => .number
  | .bool _ => .bool
  | .string _ => .string
  | .char _ => .char
  | .data _ => .data
  | .array element _ => .array element
  | .map element _ => .map element

/-- Only the truth value `true` counts as true. -/
def isTrue : Value → Bool
  | .bool b => b
  | _ => false

/-- A map without entries. -/
def emptyMap (element : Kind) : Value := .map element []

/-! ## Text -/

/-- Marks the text of a value inside a container, so that strings, characters and data stand out. -/
def enclose (v : Value) (text : String) : String :=
  match v with
  | .string _ => "\"" ++ text ++ "\""
  | .char _ => "'" ++ text ++ "'"
  | .data _ => "`" ++ text ++ "`"
  | _ => text

mutual

/-- The printed text of a value. Scalars stand bare. -/
def display : Value → String
  | .number n => n.render
  | .bool b => if b then "true" else "false"
  | .string s => s
  | .char c => String.singleton c
  | .data bytes => Utf8.decodeLossy bytes
  | .array _ items => "[" ++ displayItems items ++ "]"
  | .map _ entries => "\x7b" ++ displayEntries entries ++ "\x7d"

/-- Items with commas between them. -/
def displayItems : List Value → String
  | [] => ""
  | [item] => enclose item (display item)
  | item :: rest => enclose item (display item) ++ ", " ++ displayItems rest

/-- Entries with commas between them. -/
def displayEntries : List (String × Value) → String
  | [] => ""
  | [(key, value)] => "\"" ++ key ++ "\": " ++ enclose value (display value)
  | (key, value) :: rest =>
    "\"" ++ key ++ "\": " ++ enclose value (display value) ++ ", " ++ displayEntries rest

end

/-- The key under which a map files an entry: the printed text of the value. -/
def key (v : Value) : String := v.display

/-! ## Equality -/

mutual

/-- Equality of contents. Element kinds do not take part. -/
def same : Value → Value → Bool
  | .number a, .number b => a == b
  | .bool a, .bool b => a == b
  | .string a, .string b => a == b
  | .char a, .char b => a == b
  | .data a, .data b => a == b
  | .array _ a, .array _ b => sameItems a b
  | .map _ a, .map _ b => sameEntries a b
  | _, _ => false

/-- Equality item by item. -/
def sameItems : List Value → List Value → Bool
  | [], [] => true
  | a :: as, b :: bs => same a b && sameItems as bs
  | _, _ => false

/-- Equality entry by entry, keys included. -/
def sameEntries : List (String × Value) → List (String × Value) → Bool
  | [], [] => true
  | (k, a) :: as, (l, b) :: bs => k == l && same a b && sameEntries as bs
  | _, _ => false

end

end Value

end LineScript
