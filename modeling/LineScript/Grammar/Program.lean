import LineScript.Grammar.Expression

/-!
# Reading programs

A program is a sequence of expressions up to the end of file, each of which has to finish its line.
-/

set_option autoImplicit false

namespace LineScript

namespace TokenStream

variable (ts : TokenStream)

/-- The span from the token at `offset` to the one just before `next`. -/
def spanTo (offset next : Nat) : Span := (ts.token offset).span.merge (ts.token (next - 1)).span

/-- At most `bound` statements from an offset on. Each takes at least one token, so `ts.size` is
enough. -/
def statementsIn : (bound offset : Nat) → Reading Program
  | 0, _ => pure []
  | bound + 1, offset =>
    if ts.kind offset = .endOfFile then
      pure []
    else do
      let (expr, next) ← ts.expression offset
      if ts.lineEndsBefore next ∨ ts.kind next = .endOfFile then
        let rest ← statementsIn bound next
        pure (⟨expr, ts.spanTo offset next⟩ :: rest)
      else
        Reading.fail (ts.mismatch .endOfLine next)

/-- Reads a whole program. -/
def program : Reading Program := ts.statementsIn ts.size 0

end TokenStream

/-- Reads a list of tokens as a program. -/
def Program.ofTokens (tokens : List Token) : Reading Program := (TokenStream.ofList tokens).program

end LineScript
