import LineScript.Grammar.Literal

/-!
# Streams of tokens

A parser reads tokens by their offset. A stream always ends: every offset at or past its end holds
one and the same end-of-file token. A failed reading says what was expected, after which token, and
what stood there instead.
-/

set_option autoImplicit false

namespace LineScript

/-- Tokens, followed by an end of file that goes on forever. -/
structure TokenStream where
  body : Array Token
  final : Token

/-- What a parser needs at some place. -/
inductive Expected where
  | expression
  | endOfLine
  | token (kind : TokenKind)
deriving DecidableEq

/-- The name of what is expected. -/
def Expected.name : Expected → String
  | .expression => "expression"
  | .endOfLine => "end of line"
  | .token kind => kind.tag

/-- A token that does not fit. -/
structure ParseError where
  expected : Expected
  /-- The token before it. -/
  after : Option TokenKind
  found : TokenKind
  span : Span
deriving DecidableEq

namespace ParseError

/-- The error code. -/
def code : String := "OK-P001"

/-- The wording of the error. -/
def message (e : ParseError) : String :=
  let after := match e.after with
    | some kind => s!" after {kind.tag}"
    | none => ""
  s!"expected {e.expected.name}{after}, got {e.found.tag}"

end ParseError

namespace TokenStream

/-- The stream of a list of tokens. A list that does not end with an end of file is closed by one
right after its last token. -/
def ofList (tokens : List Token) : TokenStream :=
  match tokens.getLast? with
  | some last =>
    if last.kind = .endOfFile then ⟨tokens.dropLast.toArray, last⟩
    else ⟨tokens.toArray, Token.endOfFile last.span.stop⟩
  | none => ⟨#[], Token.endOfFile 0⟩

/-- The offset of the closing end of file. -/
def size (ts : TokenStream) : Nat := ts.body.size

/-- The token at an offset. -/
def token (ts : TokenStream) (offset : Nat) : Token := ts.body.getD offset ts.final

/-- The kind of the token at an offset. -/
def kind (ts : TokenStream) (offset : Nat) : TokenKind := (ts.token offset).kind

/-- A line ends between the token before an offset and the one at it. -/
def lineEndsBefore (ts : TokenStream) (offset : Nat) : Bool :=
  match offset with
  | 0 => false
  | before + 1 => (ts.token before).endsLine

/-- The error that the token at an offset does not fit. An end of file is reported just behind the
token before it, on that token's line. -/
def mismatch (ts : TokenStream) (expected : Expected) (offset : Nat) : ParseError :=
  let found := ts.token offset
  match offset with
  | 0 => ⟨expected, none, found.kind, found.span⟩
  | before + 1 =>
    let last := ts.token before
    let span := if found.kind = .endOfFile then Span.point last.span.stop else found.span
    ⟨expected, some last.kind, found.kind, span⟩

end TokenStream

/-! ## Readings -/

/-- The outcome of reading part of a stream, with the faulty literals met on the way. These are kept
when the reading fails. -/
structure Reading (α : Type) where
  errors : List LiteralError
  outcome : Except ParseError α

namespace Reading

variable {α β : Type}

instance : Monad Reading where
  pure a := ⟨[], .ok a⟩
  bind r f :=
    match r.outcome with
    | .error e => ⟨r.errors, .error e⟩
    | .ok a =>
      let next := f a
      ⟨r.errors ++ next.errors, next.outcome⟩

/-- A failed reading. -/
def fail (e : ParseError) : Reading α := ⟨[], .error e⟩

/-- Notes faulty literals. -/
def note (errors : List LiteralError) : Reading Unit := ⟨errors, .ok ()⟩

/-- A sequence of readings succeeds when both do, and notes what both note. -/
theorem bind_eq_ok {r : Reading α} {f : α → Reading β} {errors : List LiteralError} {b : β}
    (h : r >>= f = ⟨errors, .ok b⟩) :
    ∃ a, r.outcome = .ok a ∧ (f a).outcome = .ok b ∧ errors = r.errors ++ (f a).errors := by
  obtain ⟨noted, outcome⟩ := r
  cases outcome with
  | error e => cases h
  | ok a =>
    refine ⟨a, rfl, ?_, ?_⟩
    · exact congrArg Reading.outcome h
    · exact (congrArg Reading.errors h).symm

end Reading

/-- Reads a token of one kind and returns the offset behind it. -/
def TokenStream.expect (ts : TokenStream) (kind : TokenKind) (offset : Nat) : Reading Nat :=
  if ts.kind offset = kind then pure (offset + 1)
  else Reading.fail (ts.mismatch (.token kind) offset)

end LineScript
