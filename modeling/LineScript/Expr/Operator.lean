import LineScript.Token.Basic

/-!
# Operators

Binary operators fall into arithmetic, relations, the two logical connectives, and assignments. An
assignment is either plain or applies an arithmetic operator to the old value first.
-/

set_option autoImplicit false

namespace LineScript

/-- Arithmetic on two numbers; addition also joins strings and data. -/
inductive Arith where
  | add
  | subtract
  | multiply
  | divide
  | remainder
deriving DecidableEq, Inhabited

/-- Comparison of two values. -/
inductive Relation where
  | equal
  | notEqual
  | greater
  | greaterEqual
  | less
  | lessEqual
deriving DecidableEq, Inhabited

/-- Operators between two operands. -/
inductive BinaryOp where
  | arith (op : Arith)
  | relation (op : Relation)
  | and
  | or
  /-- Gives the left side the value of the right side. -/
  | assign
  /-- Gives the left side the result of an arithmetic operation on both sides. -/
  | update (op : Arith)
deriving DecidableEq, Inhabited

/-- Operators before one operand. -/
inductive UnaryOp where
  | not
  | negate
deriving DecidableEq, Inhabited

/-- The word for an arithmetic operator. -/
def Arith.name : Arith → String
  | .add => "Add"
  | .subtract => "Subtract"
  | .multiply => "Multiply"
  | .divide => "Divide"
  | .remainder => "Remainder"

/-- The word for a relation. -/
def Relation.name : Relation → String
  | .equal => "Equal"
  | .notEqual => "NotEqual"
  | .greater => "GreaterThan"
  | .greaterEqual => "GreaterThanEqual"
  | .less => "LessThan"
  | .lessEqual => "LessThanEqual"

namespace BinaryOp

/-- The operator that a token stands for. -/
def ofToken? : TokenKind → Option BinaryOp
  | .plus => some (.arith .add)
  | .minus => some (.arith .subtract)
  | .times => some (.arith .multiply)
  | .divide => some (.arith .divide)
  | .remainder => some (.arith .remainder)
  | .and => some .and
  | .or => some .or
  | .equal => some (.relation .equal)
  | .notEqual => some (.relation .notEqual)
  | .greater => some (.relation .greater)
  | .greaterEqual => some (.relation .greaterEqual)
  | .less => some (.relation .less)
  | .lessEqual => some (.relation .lessEqual)
  | .assign => some .assign
  | .plusAssign => some (.update .add)
  | .minusAssign => some (.update .subtract)
  | .timesAssign => some (.update .multiply)
  | .divideAssign => some (.update .divide)
  | .remainderAssign => some (.update .remainder)
  | _ => none

/-- The token that an operator is written as. -/
def token : BinaryOp → TokenKind
  | .arith .add => .plus
  | .arith .subtract => .minus
  | .arith .multiply => .times
  | .arith .divide => .divide
  | .arith .remainder => .remainder
  | .and => .and
  | .or => .or
  | .relation .equal => .equal
  | .relation .notEqual => .notEqual
  | .relation .greater => .greater
  | .relation .greaterEqual => .greaterEqual
  | .relation .less => .less
  | .relation .lessEqual => .lessEqual
  | .assign => .assign
  | .update .add => .plusAssign
  | .update .subtract => .minusAssign
  | .update .multiply => .timesAssign
  | .update .divide => .divideAssign
  | .update .remainder => .remainderAssign

theorem ofToken?_token (op : BinaryOp) : ofToken? op.token = some op := by
  rcases op with (_ | _ | _ | _ | _) | (_ | _ | _ | _ | _ | _) | _ | _ | _ | (_ | _ | _ | _ | _) <;>
    rfl

/-- The operator as it is written. -/
def symbol (op : BinaryOp) : String := op.token.tag

/-- How tightly an operator binds; assignments bind least. -/
def precedence : BinaryOp → Nat
  | .assign | .update _ => 1
  | .or => 2
  | .and => 3
  | .relation _ => 4
  | .arith .add | .arith .subtract => 5
  | .arith .multiply | .arith .divide | .arith .remainder => 6

def isAssignment : BinaryOp → Bool
  | .assign | .update _ => true
  | _ => false

/-- The arithmetic that an assignment applies to the old value. -/
def compound? : BinaryOp → Option Arith
  | .update op => some op
  | _ => none

/-- The word for an operator. -/
def name : BinaryOp → String
  | .arith op => op.name
  | .relation op => op.name
  | .and => "And"
  | .or => "Or"
  | .assign => "Assign"
  | .update op => op.name ++ "Assign"

/-- Every binary operator. -/
def all : List BinaryOp := TokenKind.all.filterMap ofToken?

/-- The operator with a given word or spelling. -/
def ofName? (text : String) : Option BinaryOp :=
  all.find? (fun op => op.name == text || op.symbol == text)

end BinaryOp

namespace UnaryOp

/-- The operator that a token stands for in front of an operand. -/
def ofToken? : TokenKind → Option UnaryOp
  | .not => some .not
  | .minus => some .negate
  | _ => none

/-- The word for an operator. -/
def name : UnaryOp → String
  | .not => "Not"
  | .negate => "Negate"

/-- The operator with a given word. -/
def ofName? : String → Option UnaryOp
  | "Not" => some .not
  | "Negate" => some .negate
  | _ => none

end UnaryOp

end LineScript
