import LineScript.Session
import Mathlib.Data.List.Forall2

/-!
# Places are only carried along

Whether and how tokens can be read depends on their kinds, their texts and their line ends. The
places that they stand at come back in statements and errors and decide nothing. So the tokens of
one text and those of another that differ in places only are read alike, and whatever relates the
places of the tokens relates the places in what is read: either the place of a token is reported, or
the end of one, or the smallest place around two of them (`Span.Carried`).

The functions of the grammar are followed in one induction on the depth (`ReadAlike`); programs,
code and the result of a source come after it. The relation is left open: with one that holds of all
places this says that layout is of no account, and with one that holds of the places inside a source
only it says that nothing else is ever reported.
-/

set_option autoImplicit false

namespace LineScript

/-! ## Relations between places -/

/-- The relation holds of places that are made of related ones. -/
structure Span.Carried (R : Span → Span → Prop) : Prop where
  point : ∀ {a b}, R a b → R (Span.point a.stop) (Span.point b.stop)
  merge : ∀ {a b c d}, R a b → R c d → R (a.merge c) (b.merge d)

variable {R : Span → Span → Prop}

/-- The same token, at related places. -/
structure Token.Alike (R : Span → Span → Prop) (t u : Token) : Prop where
  kind : t.kind = u.kind
  value : t.value = u.value
  endsLine : t.endsLine = u.endsLine
  span : R t.span u.span

/-- The same fault of the same token, at related places. -/
structure LiteralError.Alike (R : Span → Span → Prop) (e f : LiteralError) : Prop where
  token : e.token.Alike R f.token
  fault : e.fault = f.fault

/-- The same error, at related places. -/
structure ParseError.Alike (R : Span → Span → Prop) (e f : ParseError) : Prop where
  expected : e.expected = f.expected
  after : e.after = f.after
  found : e.found = f.found
  span : R e.span f.span

/-- The same expression, at related places. -/
structure Statement.Alike (R : Span → Span → Prop) (s t : Statement) : Prop where
  expr : s.expr = t.expr
  span : R s.span t.span

/-- The same error, at related places. -/
structure Lowering.Located.Alike (R : Span → Span → Prop) (e f : Lowering.Located) : Prop where
  error : e.error = f.error
  span : R e.span f.span

/-- Both succeed with related values, or both fail with related errors. -/
inductive Agree {ε α β : Type} (E : ε → ε → Prop) (V : α → β → Prop) :
    Except ε α → Except ε β → Prop
  | ok {a : α} {b : β} (h : V a b) : Agree E V (.ok a) (.ok b)
  | error {e f : ε} (h : E e f) : Agree E V (.error e) (.error f)

/-- How two results that agree can look, for proofs that go on with both. -/
theorem Agree.ok_or_error {ε α β : Type} {E : ε → ε → Prop} {V : α → β → Prop} {r : Except ε α}
    {s : Except ε β} (h : Agree E V r s) :
    (∃ a b, r = .ok a ∧ s = .ok b ∧ V a b) ∨ ∃ e f, r = .error e ∧ s = .error f ∧ E e f := by
  cases h with
  | @ok a b h => exact Or.inl ⟨a, b, rfl, rfl, h⟩
  | @error e f h => exact Or.inr ⟨e, f, rfl, rfl, h⟩

/-! ## Readings -/

namespace Reading

variable {α β γ δ : Type}

/-- Readings that note the same faults and end alike. -/
structure Alike (R : Span → Span → Prop) (V : α → β → Prop) (r : Reading α)
    (s : Reading β) : Prop where
  errors : List.Forall₂ (LiteralError.Alike R) r.errors s.errors
  outcome : Agree (ParseError.Alike R) V r.outcome s.outcome

/-- Readings that read nothing. -/
theorem Alike.pure {V : α → β → Prop} {a : α} {b : β} (h : V a b) :
    Alike R V (Pure.pure a) (Pure.pure b) :=
  ⟨.nil, .ok h⟩

/-- Readings that end with an error each; the places of the two errors are what is left to relate.
-/
theorem Alike.fail {V : α → β → Prop} {e f : ParseError} (h : e.Alike R f) :
    Alike R V (Reading.fail e) (Reading.fail f) :=
  ⟨.nil, .error h⟩

/-- Two readings in a row, where the second may depend on what the first one gave on its side. -/
theorem Alike.bind {V : α → β → Prop} {W : γ → δ → Prop} {r : Reading α} {s : Reading β}
    {f : α → Reading γ} {g : β → Reading δ} (h : Alike R V r s)
    (hf : ∀ {a b}, V a b → Alike R W (f a) (g b)) : Alike R W (r >>= f) (s >>= g) := by
  obtain ⟨errors, outcome⟩ := r
  obtain ⟨errors', outcome'⟩ := s
  obtain ⟨herrors, houtcome⟩ := h
  cases houtcome with
  | ok hvalue => exact ⟨List.rel_append herrors (hf hvalue).errors, (hf hvalue).outcome⟩
  | error he => exact ⟨herrors, .error he⟩

/-- Behind readings of the same value. -/
theorem Alike.bind_eq {W : γ → δ → Prop} {r s : Reading α} {f : α → Reading γ} {g : α → Reading δ}
    (h : Alike R Eq r s) (hf : ∀ a, Alike R W (f a) (g a)) : Alike R W (r >>= f) (s >>= g) :=
  h.bind fun {a _} hab => hab ▸ hf a

end Reading

/-! ## Tokens -/

/-- What a token denotes and what is wrong with it depends on its kind and text. -/
theorem Token.denoted?_congr {t u : Token} (hkind : u.kind = t.kind) (hvalue : u.value = t.value) :
    u.denoted? =
      t.denoted?.map fun denoted => ⟨denoted.value, denoted.errors.map fun e => ⟨u, e.fault⟩⟩ := by
  unfold denoted?
  rw [hkind, hvalue]
  split
  · rfl
  · rfl
  · split <;> rfl
  · simp [List.map_map, Function.comp_def]
  · simp only [Option.map_some, List.map_map, Function.comp_def]
  · rfl

/-- A faulty literal names the token that it was found in, so its place is the place of that token.
-/
theorem Token.token_of_mem_errors {t : Token} {denoted : Denoted} {e : LiteralError}
    (h : t.denoted? = some denoted) (he : e ∈ denoted.errors) : e.token = t := by
  rw [denoted?_congr (t := t) (u := t) rfl rfl, Option.map_eq_some_iff] at h
  obtain ⟨_, _, rfl⟩ := h
  obtain ⟨_, _, rfl⟩ := List.mem_map.1 he
  rfl

namespace TokenStream

variable {ts us : TokenStream}

/-- Streams of the same tokens at related places. -/
structure Alike (R : Span → Span → Prop) (ts us : TokenStream) : Prop where
  size : ts.size = us.size
  token : ∀ n, (ts.token n).Alike R (us.token n)

namespace Alike

/-- Decisions look at kinds, which are the same. -/
theorem kind (h : ts.Alike R us) (n : Nat) : ts.kind n = us.kind n := (h.token n).kind

/-- Line ends are marks of tokens, not places. -/
theorem lineEndsBefore (h : ts.Alike R us) (n : Nat) :
    ts.lineEndsBefore n = us.lineEndsBefore n := by
  cases n with
  | zero => rfl
  | succ n => exact (h.token n).endsLine

/-- An error in front of a token reports its place, and one at the end of file the end of the token
before. Both come from places of tokens. -/
theorem mismatch (hR : Span.Carried R) (h : ts.Alike R us) (expected : Expected) (n : Nat) :
    (ts.mismatch expected n).Alike R (us.mismatch expected n) := by
  cases n with
  | zero => exact ⟨rfl, rfl, h.kind 0, (h.token 0).span⟩
  | succ n =>
    refine ⟨rfl, congrArg some (h.kind n), h.kind (n + 1), ?_⟩
    simp only [TokenStream.mismatch, (h.token (n + 1)).kind]
    split
    · exact hR.point (h.token n).span
    · exact (h.token (n + 1)).span

/-- A sign that is missing is missing in both. -/
theorem expect (hR : Span.Carried R) (h : ts.Alike R us) (kind : TokenKind) (n : Nat) :
    Reading.Alike R Eq (ts.expect kind n) (us.expect kind n) := by
  rw [TokenStream.expect, TokenStream.expect, h.kind]
  split
  · exact .pure rfl
  · exact .fail (h.mismatch hR _ n)

end Alike

/-! ## Expressions -/

/-- Up to a depth, both streams are read alike. -/
structure ReadAlike (R : Span → Span → Prop) (ts us : TokenStream) (depth : Nat) : Prop where
  expression :
      ∀ offset, Reading.Alike R Eq (ts.expressionIn depth offset) (us.expressionIn depth offset)
  links : ∀ offset, Reading.Alike R Eq (ts.linksIn depth offset) (us.linksIn depth offset)
  operand : ∀ offset, Reading.Alike R Eq (ts.operandIn depth offset) (us.operandIn depth offset)
  arguments :
      ∀ close offset,
        Reading.Alike R Eq (ts.argumentsIn depth close offset) (us.argumentsIn depth close offset)
  expressions :
      ∀ offset, Reading.Alike R Eq (ts.expressionsIn depth offset) (us.expressionsIn depth offset)
  entries : ∀ offset, Reading.Alike R Eq (ts.entriesIn depth offset) (us.entriesIn depth offset)
  keys :
      ∀ base offset, Reading.Alike R Eq (ts.keysIn depth base offset) (us.keysIn depth base offset)

section Steps

variable {depth : Nat} (hR : Span.Carried R) (h : ts.Alike R us)

include hR h

/-- Without depth, reading fails at the same offset in both. -/
theorem readAlike_zero : ReadAlike R ts us 0 where
  expression offset := by
    rw [expressionIn, expressionIn]
    exact .fail (h.mismatch hR _ offset)
  links offset := by
    rw [linksIn, linksIn]
    exact .pure rfl
  operand offset := by
    rw [operandIn, operandIn]
    exact .fail (h.mismatch hR _ offset)
  arguments close offset := by
    rw [argumentsIn, argumentsIn]
    exact .fail (h.mismatch hR _ offset)
  expressions offset := by
    rw [expressionsIn, expressionsIn]
    exact .fail (h.mismatch hR _ offset)
  entries offset := by
    rw [entriesIn, entriesIn]
    exact .fail (h.mismatch hR _ offset)
  keys base offset := by
    rw [keysIn, keysIn]
    exact .pure rfl

omit hR h in
/-- An operand and its links, neither of which looks at places. -/
theorem alike_expression (ih : ReadAlike R ts us depth) (offset : Nat) :
    Reading.Alike R Eq (ts.expressionIn (depth + 1) offset)
      (us.expressionIn (depth + 1) offset) := by
  rw [expressionIn, expressionIn]
  refine (ih.operand offset).bind_eq ?_
  rintro ⟨first, next⟩
  refine (ih.links next).bind_eq ?_
  rintro ⟨links, next⟩
  exact .pure rfl

/-- An operator has to stand on the line of both operands, which is asked of the marks on the tokens
around it. -/
theorem alike_links (ih : ReadAlike R ts us depth) (offset : Nat) :
    Reading.Alike R Eq (ts.linksIn (depth + 1) offset) (us.linksIn (depth + 1) offset) := by
  rw [linksIn, linksIn, h.lineEndsBefore, h.kind, h.lineEndsBefore]
  split
  · exact .pure rfl
  · split
    · exact .pure rfl
    · split
      · exact .fail (h.mismatch hR _ _)
      · refine (ih.operand _).bind_eq ?_
        rintro ⟨right, next⟩
        refine (ih.links next).bind_eq ?_
        rintro ⟨links, next⟩
        exact .pure rfl

/-- The closing bracket is one of the two ends of such a list. -/
theorem alike_arguments (ih : ReadAlike R ts us depth) (close : TokenKind) (offset : Nat) :
    Reading.Alike R Eq (ts.argumentsIn (depth + 1) close offset)
      (us.argumentsIn (depth + 1) close offset) := by
  rw [argumentsIn, argumentsIn, h.kind]
  split
  · exact .pure rfl
  · refine (ih.expressions offset).bind_eq ?_
    rintro ⟨items, next⟩
    exact (h.expect hR close next).bind_eq fun next => .pure rfl

omit hR in
/-- A comma or its absence decides whether the list goes on. -/
theorem alike_expressions (ih : ReadAlike R ts us depth) (offset : Nat) :
    Reading.Alike R Eq (ts.expressionsIn (depth + 1) offset)
      (us.expressionsIn (depth + 1) offset) := by
  rw [expressionsIn, expressionsIn]
  refine (ih.expression offset).bind_eq ?_
  rintro ⟨first, next⟩
  simp only [h.kind]
  split
  · refine (ih.expressions _).bind_eq ?_
    rintro ⟨rest, next⟩
    exact .pure rfl
  · exact .pure rfl

/-- As for lists, with the colon between the two parts of an entry. -/
theorem alike_entries (ih : ReadAlike R ts us depth) (offset : Nat) :
    Reading.Alike R Eq (ts.entriesIn (depth + 1) offset) (us.entriesIn (depth + 1) offset) := by
  rw [entriesIn, entriesIn, h.kind]
  split
  · exact .pure rfl
  · refine (ih.expression offset).bind_eq ?_
    rintro ⟨key, next⟩
    refine (h.expect hR .colon next).bind_eq fun next => ?_
    refine (ih.expression next).bind_eq ?_
    rintro ⟨value, next⟩
    simp only [h.kind]
    split
    · refine (ih.entries _).bind_eq ?_
      rintro ⟨rest, next⟩
      exact .pure rfl
    · exact .pure rfl

/-- The base has no place, so the same base is used on both sides. -/
theorem alike_keys (ih : ReadAlike R ts us depth) (base : Expr) (offset : Nat) :
    Reading.Alike R Eq (ts.keysIn (depth + 1) base offset) (us.keysIn (depth + 1) base offset) := by
  rw [keysIn, keysIn, h.kind, h.lineEndsBefore]
  split
  · refine (ih.expression _).bind_eq ?_
    rintro ⟨key, next⟩
    exact (h.expect hR .bracketClose next).bind_eq fun next => ih.keys _ next
  · exact .pure rfl

/-- Tokens of the same kind and text denote the same value. The faults of a literal carry their
token along, which is the only place that an operand leaves behind. -/
theorem alike_operand (ih : ReadAlike R ts us depth) (offset : Nat) :
    Reading.Alike R Eq (ts.operandIn (depth + 1) offset) (us.operandIn (depth + 1) offset) := by
  have ht := h.token offset
  rw [operandIn, operandIn, Token.denoted?_congr ht.kind.symm ht.value.symm]
  rcases hdenoted : (ts.token offset).denoted? with _ | denoted
  · simp only [Option.map_none, ← h.kind, ← ht.value, ← ht.endsLine]
    cases ts.kind offset with
    | bracketOpen =>
      refine (ih.arguments _ _).bind_eq ?_
      rintro ⟨items, next⟩
      exact .pure rfl
    | braceOpen =>
      refine (ih.entries _).bind_eq ?_
      rintro ⟨entries, next⟩
      exact (h.expect hR .braceClose next).bind_eq fun next => .pure rfl
    | parenOpen =>
      refine (ih.expression _).bind_eq ?_
      rintro ⟨inner, next⟩
      exact (h.expect hR .parenClose next).bind_eq fun next => .pure rfl
    | not =>
      refine (ih.operand _).bind_eq ?_
      rintro ⟨operand, next⟩
      exact .pure rfl
    | minus =>
      refine (ih.operand _).bind_eq ?_
      rintro ⟨operand, next⟩
      exact .pure rfl
    | identifier =>
      dsimp only
      split
      · refine (ih.arguments _ _).bind_eq ?_
        rintro ⟨args, next⟩
        exact .pure rfl
      · exact ih.keys _ _
    | _ => exact .fail (h.mismatch hR _ _)
  · -- The literal is at this place in both.
    have herrors : Reading.Alike R Eq (Reading.note denoted.errors)
        (Reading.note (denoted.errors.map fun e => ⟨us.token offset, e.fault⟩)) := by
      refine ⟨List.forall₂_map_right_iff.2 (List.forall₂_same.2 fun e he => ⟨?_, rfl⟩), .ok rfl⟩
      rwa [Token.token_of_mem_errors hdenoted he]
    exact herrors.bind_eq fun _ => .pure rfl

/-- The induction on the depth, for all seven functions at once. -/
theorem readAlike (depth : Nat) : ReadAlike R ts us depth := by
  induction depth with
  | zero => exact readAlike_zero hR h
  | succ depth ih =>
    exact {
      expression := alike_expression ih
      links := alike_links hR h ih
      operand := alike_operand hR h ih
      arguments := alike_arguments hR h ih
      expressions := alike_expressions h ih
      entries := alike_entries hR h ih
      keys := alike_keys hR h ih }

/-! ## Programs -/

/-- A statement reaches from its first token to its last. -/
theorem alike_spanTo (offset next : Nat) : R (ts.spanTo offset next) (us.spanTo offset next) :=
  hR.merge (h.token offset).span (h.token (next - 1)).span

/-- The statements of a program, each at the place of its tokens, by induction on the bound of their
number. -/
theorem alike_statements (bound offset : Nat) : Reading.Alike R (List.Forall₂ (Statement.Alike R))
    (ts.statementsIn bound offset) (us.statementsIn bound offset) := by
  induction bound generalizing offset with
  | zero =>
    rw [statementsIn, statementsIn]
    exact .pure .nil
  | succ bound ih =>
    rw [statementsIn, statementsIn, h.kind, expression, expression, depth, depth, h.size]
    split
    · exact .pure .nil
    · refine ((readAlike hR h _).expression offset).bind_eq ?_
      rintro ⟨expr, next⟩
      simp only [h.kind, h.lineEndsBefore]
      split
      · exact (ih next).bind fun hrest => .pure (.cons ⟨rfl, alike_spanTo hR h offset next⟩ hrest)
      · exact .fail (h.mismatch hR _ next)

end Steps

/-! ## Lists of tokens -/

/-- A list that ends in an end of file is closed by it, and by nothing that is made up. -/
theorem ofList_concat (body : List Token) {closing : Token} (h : closing.kind = .endOfFile) :
    ofList (body ++ [closing]) = ⟨body.toArray, closing⟩ := by
  simp [ofList, h]

/-- Behind the body stands the closing token, at every offset. -/
theorem token_mk (body : List Token) (closing : Token) (n : Nat) :
    (TokenStream.mk body.toArray closing).token n = body[n]?.getD closing := by
  simp [token, Array.getD_eq_getD_getElem?]

/-- Lists of tokens that are alike give streams that are, the closing token included. -/
theorem alike_mk {body body' : List Token} {closing closing' : Token}
    (h : List.Forall₂ (Token.Alike R) body body') (hclosing : closing.Alike R closing') :
    (TokenStream.mk body.toArray closing).Alike R (TokenStream.mk body'.toArray closing') := by
  refine ⟨h.length_eq, fun n => ?_⟩
  rw [token_mk, token_mk]
  induction h generalizing n with
  | nil => exact hclosing
  | cons ht _ ih =>
    cases n with
    | zero => exact ht
    | succ n => exact ih n

end TokenStream

/-! ## From tokens to an answer -/

/-- The same tokens at related places, closed by an end of file. -/
inductive Token.ListAlike (R : Span → Span → Prop) : List Token → List Token → Prop
  | closed {body body' : List Token} {closing closing' : Token}
      (hbody : List.Forall₂ (Token.Alike R) body body') (hclosing : closing.Alike R closing')
      (hend : closing.kind = .endOfFile) : ListAlike R (body ++ [closing]) (body' ++ [closing'])

/-- The same error behind the scanner, at related places. A run knows of no places. -/
inductive SourceError.Alike (R : Span → Span → Prop) : SourceError → SourceError → Prop
  | parse {e f : ParseError} (h : e.Alike R f) : Alike R (.parse e) (.parse f)
  | literals {es fs : List LiteralError} (h : List.Forall₂ (LiteralError.Alike R) es fs) :
      Alike R (.literals es) (.literals fs)
  | lowering {e f : Lowering.Located} (h : e.Alike R f) : Alike R (.lowering e) (.lowering f)
  | run (e : RunError) : Alike R (.run e) (.run e)

section Sources

variable {p p' : Program} {tokens tokens' : List Token} {source source' : String}

/-- Code is made from expressions alone; a statement only lends its place to the error, if there is
one. -/
theorem Lowering.statements_alike (h : List.Forall₂ (Statement.Alike R) p p') (start : Nat)
    (scope : Scope) :
    Agree (Located.Alike R) Eq (statements start scope p) (statements start scope p') := by
  induction h generalizing start scope with
  | nil => exact .ok rfl
  | @cons s t _ _ hst _ ih =>
    rw [statements, statements, hst.expr]
    rcases expr t.expr start scope with e | first
    · exact .error ⟨rfl, hst.span⟩
    · rcases (ih (start + first.code.length) first.scope).ok_or_error with
        ⟨others, _, hs, ht, rfl⟩ | ⟨e, f, hs, ht, he⟩
      · simp only [hs, ht]
        exact .ok rfl
      · simp only [hs, ht]
        exact .error he

/-- The same of a whole program. -/
theorem Program.lower_alike (h : List.Forall₂ (Statement.Alike R) p p') :
    Agree (Lowering.Located.Alike R) Eq p.lower p'.lower := by
  rw [lower, lower]
  rcases (Lowering.statements_alike h 0 .empty).ok_or_error with
    ⟨all, _, hp, hp', rfl⟩ | ⟨e, f, hp, hp', he⟩
  · rw [hp, hp']
    exact .ok rfl
  · rw [hp, hp']
    exact .error he

variable (hR : Span.Carried R) (hscan : Token.scan source = .ok tokens)
    (hscan' : Token.scan source' = .ok tokens') (h : Token.ListAlike R tokens tokens')

include hR h

/-- The programs of such tokens have the same expressions and the same faults or errors. -/
theorem Program.ofTokens_alike :
    Reading.Alike R (List.Forall₂ (Statement.Alike R)) (Program.ofTokens tokens)
      (Program.ofTokens tokens') := by
  obtain ⟨hbody, hclosing, hend⟩ := h
  rw [ofTokens, ofTokens, TokenStream.ofList_concat _ hend,
    TokenStream.ofList_concat _ (hclosing.kind ▸ hend), TokenStream.program, TokenStream.program,
    TokenStream.size, TokenStream.size, List.size_toArray, List.size_toArray, hbody.length_eq]
  exact TokenStream.alike_statements hR (TokenStream.alike_mk hbody hclosing) _ 0

include hscan hscan'

/-- Two sources with such tokens are both read, both have faulty literals, or both end with an
error. -/
theorem Source.parse_alike :
    Agree (SourceError.Alike R) (List.Forall₂ (Statement.Alike R)) (Source.parse source)
      (Source.parse source') := by
  obtain ⟨herrors, houtcome⟩ := Program.ofTokens_alike hR h
  simp only [Source.parse, hscan, hscan']
  rcases houtcome.ok_or_error with ⟨p, p', hp, hp', halike⟩ | ⟨e, f, he, hf, halike⟩
  · have hnone : (Program.ofTokens tokens).errors = [] ↔
        (Program.ofTokens tokens').errors = [] := by
      rw [← List.length_eq_zero_iff, herrors.length_eq, List.length_eq_zero_iff]
    simp only [hp, hp', hnone]
    split
    · exact .ok halike
    · exact .error (.literals herrors)
  · simp only [he, hf]
    exact .error (.parse halike)

/-- They are lowered to the very same code. -/
theorem Source.compile_alike :
    Agree (SourceError.Alike R) Eq (Source.compile source) (Source.compile source') := by
  rw [Source.compile, Source.compile]
  rcases (Source.parse_alike hR hscan hscan' h).ok_or_error with
    ⟨p, p', hp, hp', halike⟩ | ⟨e, f, he, hf, halike⟩
  · rcases (Program.lower_alike halike).ok_or_error with
      ⟨routine, _, hl, hl', rfl⟩ | ⟨e, f, hl, hl', halike⟩
    · simp only [hp, hp', hl, hl']
      exact .ok rfl
    · simp only [hp, hp', hl, hl']
      exact .error (.lowering halike)
  · simp only [he, hf]
    exact .error halike

/-- They print the same and end alike. What is left to relate are the errors before the run, since
an error in the run knows of no place. -/
theorem Source.run_alike (limit : Option Nat) (sink : Sink) :
    (Source.run source limit sink).output = (Source.run source' limit sink).output ∧
      Agree (SourceError.Alike R) Eq (Source.run source limit sink).result
        (Source.run source' limit sink).result := by
  rw [Source.run, Source.run]
  rcases (Source.compile_alike hR hscan hscan' h).ok_or_error with
    ⟨routine, _, hc, hc', rfl⟩ | ⟨e, f, he, hf, halike⟩
  · simp only [hc, hc']
    rcases (routine.run limit sink).result with e | registers
    · exact ⟨trivial, .error (.run e)⟩
    · exact ⟨trivial, .ok rfl⟩
  · simp only [he, hf]
    exact ⟨trivial, .error halike⟩

end Sources

end LineScript
