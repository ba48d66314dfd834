import LineScript.Expr.Operator
import LineScript.Value.Basic

/-!
# Expressions and programs

A program is a list of expressions, one to a line. Assignments are expressions too.
-/

set_option autoImplicit false

namespace LineScript

/-- An expression. -/
inductive Expr where
  | literal (value : Value)
  /-- A variable. -/
  | ident (name : String)
  /-- An element of a container: `base[key]`. -/
  | element (base key : Expr)
  /-- `[a, b, c]` -/
  | array (items : List Expr)
  /-- Keys with their values, in braces. -/
  | map (entries : List (Expr × Expr))
  /-- `name(args)` -/
  | call (name : String) (args : List Expr)
  /-- An expression in parentheses. -/
  | group (inner : Expr)
  | unary (op : UnaryOp) (operand : Expr)
  | binary (left : Expr) (op : BinaryOp) (right : Expr)
deriving Inhabited

/-- An expression that stands as a statement, from its first to its last token. -/
structure Statement where
  expr : Expr
  span : Span
deriving Inhabited

/-- A program: statements in the order of the source. -/
abbrev Program := List Statement

end LineScript
