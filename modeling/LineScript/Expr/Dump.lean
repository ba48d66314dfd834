import LineScript.Expr.Basic
import LineScript.Json

/-!
# Programs as data

The JSON form of kinds, values, expressions and programs. A variant is an object with one member,
its name; numbers stand as their decimal text and data as a list of bytes. Spans are left out.
-/

set_option autoImplicit false

namespace LineScript

/-- A variant with a payload. -/
def Json.variant (name : String) (payload : Json) : Json := .object [(name, payload)]

/-- The JSON form of a kind. -/
def Kind.toJson : Kind → Json
  | .number => .string "Number"
  | .bool => .string "Bool"
  | .string => .string "String"
  | .char => .string "Char"
  | .data => .string "Data"
  | .any => .string "Any"
  | .array element => .variant "Array" element.toJson
  | .map element => .variant "Map" element.toJson

namespace Value

mutual

/-- The JSON form of a value. -/
def toJson : Value → Json
  | .number n => .variant "Number" (.string n.render)
  | .bool b => .variant "Bool" (.bool b)
  | .string s => .variant "String" (.string s)
  | .char c => .variant "Char" (.string (String.singleton c))
  | .data bytes => .variant "Data" (.array (bytes.map (fun b => .nat b.toNat)))
  | .array element items =>
    .variant "Array" (.object [("element", element.toJson), ("items", .array (itemsToJson items))])
  | .map element entries =>
    .variant "Map"
      (.object [("element", element.toJson), ("entries", .object (entriesToJson entries))])

def itemsToJson : List Value → List Json
  | [] => []
  | item :: rest => toJson item :: itemsToJson rest

def entriesToJson : List (String × Value) → List (String × Json)
  | [] => []
  | (key, value) :: rest => (key, toJson value) :: entriesToJson rest

end

end Value

namespace Expr

mutual

/-- The JSON form of an expression. -/
def toJson : Expr → Json
  | .literal value => .variant "Literal" value.toJson
  | .ident name => .variant "Identifier" (.string name)
  | .element base key => .variant "Key" (.object [("expr", toJson base), ("key", toJson key)])
  | .array items => .variant "Array" (.array (listToJson items))
  | .map entries => .variant "Map" (.array (pairsToJson entries))
  | .call name args =>
    .variant "Call" (.object [("name", .string name), ("args", .array (listToJson args))])
  | .group inner => .variant "Group" (toJson inner)
  | .unary op operand =>
    .variant "Unary" (.object [("op", .string op.name), ("expr", toJson operand)])
  | .binary left op right =>
    .variant "Binary"
      (.object [("left", toJson left), ("op", .string op.name), ("right", toJson right)])

def listToJson : List Expr → List Json
  | [] => []
  | e :: rest => toJson e :: listToJson rest

def pairsToJson : List (Expr × Expr) → List Json
  | [] => []
  | (key, value) :: rest => .array [toJson key, toJson value] :: pairsToJson rest

end

end Expr

/-- The JSON form of a program. -/
def Program.toJson (p : Program) : Json :=
  .object [("statements", .array (p.map (fun s => s.expr.toJson)))]

end LineScript
