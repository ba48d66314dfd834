/-!
# Kinds

The kind of a value says what it is; for an array or a map it also names the kind that all elements
share, or `any` where they share none. The same type describes what is known about a value before
the program runs.
-/

set_option autoImplicit false

namespace LineScript

/-- What a value is. -/
inductive Kind where
  | number
  | bool
  | string
  | char
  | data
  /-- The element kind of an empty or mixed container. -/
  | any
  | array (element : Kind)
  | map (element : Kind)
deriving DecidableEq, Inhabited

namespace Kind

def isArray : Kind → Bool
  | .array _ => true
  | _ => false

def isMap : Kind → Bool
  | .map _ => true
  | _ => false

/-- The element kind of a container. -/
def element? : Kind → Option Kind
  | .array element => some element
  | .map element => some element
  | _ => none

/-- The name of a kind: containers put their brackets before the name of the element kind. -/
def render : Kind → String
  | .number => "number"
  | .bool => "bool"
  | .string => "string"
  | .char => "char"
  | .data => "data"
  | .any => "any"
  | .array element => "[]" ++ element.render
  | .map element => "\x7b\x7d" ++ element.render

instance : ToString Kind := ⟨render⟩

/-- `any` is as good as knowing nothing. -/
def known? : Kind → Option Kind
  | .any => none
  | kind => some kind

/-- The element kind of a container after a value is put into it, of kind `stored` where that is
known: a value of another kind makes the container mixed. -/
def widen (element : Kind) (stored : Option Kind) : Kind :=
  if element = .any ∨ stored = some element then element else .any

/-- A variable that holds `held` may be given a `given`: the kinds agree up to `any` inside
either. -/
def compatible : Kind → Kind → Bool
  | .any, _ => true
  | _, .any => true
  | .array a, .array b => compatible a b
  | .map a, .map b => compatible a b
  | held, given => held == given

end Kind

end LineScript
