import LineScript.Expr.Chain
import LineScript.Proofs.Expr.Nodes

/-!
# The yield of an expression

`Expr.yield` lists what an expression is written with, from left to right. A terminal is less than a
token: it says nothing about the place, and of a literal only the value is left. It says more than a
kind of token where the layout matters: an operator between two operands is not the sign in front of
one, and the bracket of a key is not that of an array.

The tree of a chain of operators is built by moving operators and operands about in the tree only:
its yield is the chain (`yield_ofChain`).
-/

set_option autoImplicit false

namespace LineScript

/-- What stands for one token in the text of an expression. -/
inductive Terminal where
  /-- A bracket, a comma, a colon, or an operator in front of its operand. -/
  | sign (kind : TokenKind)
  | literal (value : Value)
  | name (text : String)
  /-- An operator between two operands. -/
  | operator (op : BinaryOp)
  /-- The parenthesis of a call and the bracket of a key. -/
  | attached (kind : TokenKind)
  /-- A comma behind the last entry of a map, which may be missing. -/
  | trailingComma

/-- The token that an operator in front of an operand is written as. -/
def UnaryOp.token : UnaryOp → TokenKind
  | .not => .not
  | .negate => .minus

theorem BinaryOp.token_of_ofToken? {kind : TokenKind} {op : BinaryOp}
    (h : ofToken? kind = some op) : kind = op.token := by
  cases kind <;> simp [ofToken?] at h <;> subst h <;> rfl

theorem BinaryOp.token_ne_endOfFile (op : BinaryOp) : op.token ≠ .endOfFile := by
  intro h
  have hop := op.ofToken?_token
  rw [h] at hop
  cases hop

namespace Expr

mutual

/-- What an expression is written with. -/
def yield : Expr → List Terminal
  | .literal value => [.literal value]
  | .ident name => [.name name]
  | .element base key => yield base ++ .attached .bracketOpen :: yield key ++ [.sign .bracketClose]
  | .array items => .sign .bracketOpen :: yieldItems items ++ [.sign .bracketClose]
  | .map entries => .sign .braceOpen :: yieldEntries entries ++ [.sign .braceClose]
  | .call name args => .name name :: .attached .parenOpen :: yieldItems args ++ [.sign .parenClose]
  | .group inner => .sign .parenOpen :: yield inner ++ [.sign .parenClose]
  | .unary op operand => .sign op.token :: yield operand
  | .binary left op right => yield left ++ .operator op :: yield right

/-- Expressions with commas between them. -/
def yieldItems : List Expr → List Terminal
  | [] => []
  | [e] => yield e
  | e :: next :: rest => yield e ++ .sign .comma :: yieldItems (next :: rest)

/-- Keys and values with colons and commas between them. -/
def yieldEntries : List (Expr × Expr) → List Terminal
  | [] => []
  | [(key, value)] => yield key ++ .sign .colon :: yield value ++ [.trailingComma]
  | (key, value) :: next :: rest =>
    yield key ++ .sign .colon :: yield value ++ .sign .comma :: yieldEntries (next :: rest)

end

/-- An expression is not written with nothing. -/
theorem yield_cons (e : Expr) : ∃ first rest, e.yield = first :: rest ∧ first ≠ .trailingComma := by
  induction e using Expr.induct with
  | element base key ihb _ =>
    obtain ⟨first, rest, hbase, hfirst⟩ := ihb
    exact ⟨first, _, by rw [yield, hbase]; rfl, hfirst⟩
  | binary left op right ihl _ =>
    obtain ⟨first, rest, hleft, hfirst⟩ := ihl
    exact ⟨first, _, by rw [yield, hleft]; rfl, hfirst⟩
  | _ => exact ⟨_, _, rfl, by simp⟩

/-- A chain of operators with their right operands. -/
def yieldLinks (links : Links) : List Terminal :=
  links.flatMap fun link => .operator link.1 :: yield link.2

/-- Climbing takes operators and operands from the chain into the tree, in their order. -/
theorem yield_climb (bound least : Nat) (left : Expr) (links : Links) :
    (climb bound least left links).1.yield ++ yieldLinks (climb bound least left links).2 =
      left.yield ++ yieldLinks links := by
  induction bound generalizing least left links with
  | zero => rfl
  | succ bound ih =>
    cases links with
    | nil => rfl
    | cons link links =>
      obtain ⟨op, right⟩ := link
      rw [climb]
      split
      · rfl
      · -- First the right operand grows, then the tree that has it on its right.
        rw [ih, yield]
        have hright := ih op.rightPrecedence right links
        simp only [yieldLinks, List.flatMap_cons, List.append_assoc, List.cons_append] at hright ⊢
        rw [hright]

/-- Climbing stops at an operator that binds less tightly than asked. -/
theorem climb_stops {bound : Nat} (least : Nat) (left : Expr) {links : Links}
    (hbound : links.length ≤ bound) :
    (climb bound least left links).2.length ≤ links.length ∧
      ∀ link ∈ (climb bound least left links).2.head?, link.1.precedence < least := by
  induction bound generalizing least left links with
  | zero =>
    obtain rfl := List.eq_nil_of_length_eq_zero (Nat.le_zero.1 hbound)
    exact ⟨Nat.le_refl _, fun link hlink => nomatch hlink⟩
  | succ bound ih =>
    cases links with
    | nil => exact ⟨Nat.le_refl _, fun link hlink => nomatch hlink⟩
    | cons link links =>
      obtain ⟨op, right⟩ := link
      have hlinks : links.length ≤ bound := Nat.le_of_succ_le_succ hbound
      rw [climb]
      split
      · rename_i hlt
        refine ⟨Nat.le_refl _, fun link hlink => ?_⟩
        obtain rfl : (op, right) = link := by simpa using hlink
        exact hlt
      · obtain ⟨hright, _⟩ := ih op.rightPrecedence right hlinks
        obtain ⟨hrest, hstop⟩ :=
          ih least (.binary left op (climb bound op.rightPrecedence right links).1)
            (Nat.le_trans hright hlinks)
        exact ⟨Nat.le_succ_of_le (Nat.le_trans hrest hright), hstop⟩

/-- The tree of a chain is written with the chain. -/
theorem yield_ofChain (first : Expr) (links : Links) :
    (ofChain first links).yield = first.yield ++ yieldLinks links := by
  obtain ⟨_, hstop⟩ := climb_stops 0 first (Nat.le_refl links.length)
  have hall : (climb links.length 0 first links).2 = [] := by
    rcases hrest : (climb links.length 0 first links).2 with _ | ⟨link, rest⟩
    · rfl
    · rw [hrest] at hstop
      exact absurd (hstop link rfl) (Nat.not_lt_zero _)
  have hyield := yield_climb links.length 0 first links
  rw [hall] at hyield
  simpa [yieldLinks, ofChain] using hyield

end Expr

end LineScript
