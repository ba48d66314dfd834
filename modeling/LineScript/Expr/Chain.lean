import LineScript.Expr.Basic

/-!
# Chains of operators

Between brackets, commas and line ends an expression is a first operand followed by operators, each
with its right operand. `Expr.ofChain` builds the tree: operators that bind tighter come lower,
assignments group to the right and all others to the left.

The tree is built by climbing. `Expr.climb` extends an operand to the right while the operators bind
at least as tightly as asked; the right operand of each operator is extended first, by what binds
tighter than the operator itself (by what binds as tightly, if it is an assignment).
-/

set_option autoImplicit false

namespace LineScript

/-- The least precedence that goes into the right operand of an operator. -/
def BinaryOp.rightPrecedence (op : BinaryOp) : Nat :=
  if op.isAssignment then op.precedence else op.precedence + 1

namespace Expr

/-- Operators with their right operands. -/
abbrev Links := List (BinaryOp × Expr)

/-- Extends `left` by the operators at the head of a chain that have at least precedence `least`,
and returns what is left of the chain. A chain of at most `bound` operators is read to its end. -/
def climb : (bound least : Nat) → (left : Expr) → Links → Expr × Links
  | 0, _, left, links => (left, links)
  | _ + 1, _, left, [] => (left, [])
  | bound + 1, least, left, (op, right) :: links =>
    if op.precedence < least then
      (left, (op, right) :: links)
    else
      let (right, links) := climb bound op.rightPrecedence right links
      climb bound least (.binary left op right) links

/-- The tree of a chain. -/
def ofChain (first : Expr) (links : Links) : Expr := (climb links.length 0 first links).1

end Expr

end LineScript
