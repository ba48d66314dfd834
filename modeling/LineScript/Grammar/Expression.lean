import LineScript.Expr.Chain
import LineScript.Grammar.Stream

/-!
# Reading expressions

One function per part of the grammar, each taking the offset to start at and returning what it read
with the offset behind it. An expression is a chain of operands; it goes on as long as an operator
follows on the same line. Keys and call parentheses, too, have to stand on the line of the name
before them; inside brackets a line may end anywhere else.

The functions call each other, so they share a bound on the depth of calls. A call either reads a
token first or goes down at most four levels before one is read, so `TokenStream.depth` is always
enough and the bound never shows.
-/

set_option autoImplicit false

namespace LineScript

namespace TokenStream

variable (ts : TokenStream)

mutual

/-- The longest expression at an offset. -/
def expressionIn : (depth offset : Nat) → Reading (Expr × Nat)
  | 0, offset => Reading.fail (ts.mismatch .expression offset)
  | depth + 1, offset => do
    let (first, next) ← operandIn depth offset
    let (links, next) ← linksIn depth next
    pure (.ofChain first links, next)

/-- Operators with their right operands, as far as they go on this line. -/
def linksIn : (depth offset : Nat) → Reading (Expr.Links × Nat)
  | 0, offset => pure ([], offset)
  | depth + 1, offset =>
    if ts.lineEndsBefore offset then
      pure ([], offset)
    else
      match BinaryOp.ofToken? (ts.kind offset) with
      | none => pure ([], offset)
      | some op =>
        if ts.lineEndsBefore (offset + 1) then
          Reading.fail (ts.mismatch .expression (offset + 1))
        else do
          let (right, next) ← operandIn depth (offset + 1)
          let (links, next) ← linksIn depth next
          pure ((op, right) :: links, next)

/-- One operand: a literal, a container, a call, a group, a negated operand, or a name with keys. -/
def operandIn : (depth offset : Nat) → Reading (Expr × Nat)
  | 0, offset => Reading.fail (ts.mismatch .expression offset)
  | depth + 1, offset =>
    match (ts.token offset).denoted? with
    | some denoted => do
      Reading.note denoted.errors
      pure (.literal denoted.value, offset + 1)
    | none =>
      match ts.kind offset with
      | .bracketOpen => do
        let (items, next) ← argumentsIn depth .bracketClose (offset + 1)
        pure (.array items, next)
      | .braceOpen => do
        let (entries, next) ← entriesIn depth (offset + 1)
        let next ← ts.expect .braceClose next
        pure (.map entries, next)
      | .parenOpen => do
        let (inner, next) ← expressionIn depth (offset + 1)
        let next ← ts.expect .parenClose next
        pure (.group inner, next)
      | .not => do
        let (operand, next) ← operandIn depth (offset + 1)
        pure (.unary .not operand, next)
      | .minus => do
        let (operand, next) ← operandIn depth (offset + 1)
        pure (.unary .negate operand, next)
      | .identifier =>
        let name := (ts.token offset).value
        if ts.kind (offset + 1) = .parenOpen ∧ ¬ (ts.token offset).endsLine then do
          let (args, next) ← argumentsIn depth .parenClose (offset + 2)
          pure (.call name args, next)
        else
          keysIn depth (.ident name) (offset + 1)
      | _ => Reading.fail (ts.mismatch .expression offset)

/-- Expressions with commas between them up to a closing token, which is read too. -/
def argumentsIn : (depth : Nat) → (close : TokenKind) → (offset : Nat) → Reading (List Expr × Nat)
  | 0, _, offset => Reading.fail (ts.mismatch .expression offset)
  | depth + 1, close, offset =>
    if ts.kind offset = close then
      pure ([], offset + 1)
    else do
      let (items, next) ← expressionsIn depth offset
      let next ← ts.expect close next
      pure (items, next)

/-- One expression, and any number of others after commas. -/
def expressionsIn : (depth offset : Nat) → Reading (List Expr × Nat)
  | 0, offset => Reading.fail (ts.mismatch .expression offset)
  | depth + 1, offset => do
    let (first, next) ← expressionIn depth offset
    if ts.kind next = .comma then
      let (rest, next) ← expressionsIn depth (next + 1)
      pure (first :: rest, next)
    else
      pure ([first], next)

/-- Entries of a map. A comma may also follow the last one. -/
def entriesIn : (depth offset : Nat) → Reading (List (Expr × Expr) × Nat)
  | 0, offset => Reading.fail (ts.mismatch .expression offset)
  | depth + 1, offset =>
    if ts.kind offset = .braceClose then
      pure ([], offset)
    else do
      let (key, next) ← expressionIn depth offset
      let next ← ts.expect .colon next
      let (value, next) ← expressionIn depth next
      if ts.kind next = .comma then
        let (rest, next) ← entriesIn depth (next + 1)
        pure ((key, value) :: rest, next)
      else
        pure ([(key, value)], next)

/-- Keys in brackets after an expression, on its line. -/
def keysIn : (depth : Nat) → (base : Expr) → (offset : Nat) → Reading (Expr × Nat)
  | 0, base, offset => pure (base, offset)
  | depth + 1, base, offset =>
    if ts.kind offset = .bracketOpen ∧ ¬ ts.lineEndsBefore offset then do
      let (key, next) ← expressionIn depth (offset + 1)
      let next ← ts.expect .bracketClose next
      keysIn depth (.element base key) next
    else
      pure (base, offset)

end

/-- A bound on the depth of calls from an offset. -/
def depth (offset : Nat) : Nat := 4 * (ts.size - offset) + 4

/-- Reads the longest expression at an offset. -/
def expression (offset : Nat) : Reading (Expr × Nat) := ts.expressionIn (ts.depth offset) offset

/-- Reads one expression, and any number of others after commas. -/
def expressions (offset : Nat) : Reading (List Expr × Nat) :=
  ts.expressionsIn (ts.depth offset) offset

end TokenStream

end LineScript
