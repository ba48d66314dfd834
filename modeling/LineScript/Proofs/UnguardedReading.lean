import LineScript.Proofs.Grammar.Completeness

/-!
# Reading needs no guards

The functions of the grammar are safe by their types: a stream goes on forever, a token that is no
literal denotes nothing, and a bound on the depth of calls ends every recursion. Here the same
functions are written without that. Tokens are looked up in a list by their index, a token is
evaluated as the literal it should be, and the calls are cut off by a number of steps; each of the
three can go wrong, and then there is no answer (`Mishap`).

None of them does. With any number of steps from `TokenStream.depth` on, the unguarded functions
give what the grammar gives (`reading_needs_no_guard`). The end of file that closes the list carries
the argument: it starts nothing and nothing goes on with it, so what is looked up lies in front of
it.

As for `Sound`, it is one induction on the steps for all seven functions. Four steps are counted for
every token that is left, and one more for each level of calls that comes before a token is taken.
-/

set_option autoImplicit false

namespace LineScript

/-! ## Readings that can go wrong -/

/-- Why there is no answer at all. -/
inductive Mishap where
  /-- No token has this index. -/
  | noToken (index : Nat)
  /-- There is no index in front of the first one. -/
  | noIndexBefore
  /-- A token that is no literal was evaluated as one. -/
  | noLiteral (token : Token)
  /-- The steps did not suffice. -/
  | unfinished
deriving DecidableEq

/-- A reading that can go wrong. -/
def Unguarded (α : Type) : Type := Except Mishap (Reading α)

namespace Unguarded

variable {α β : Type}

instance : Monad Unguarded where
  pure a := Except.ok (pure a)
  bind x f :=
    match x with
    | .error mishap => .error mishap
    | .ok r =>
      match r.outcome with
      | .error e => .ok ⟨r.errors, .error e⟩
      | .ok a =>
        match f a with
        | .error mishap => .error mishap
        | .ok next => .ok ⟨r.errors ++ next.errors, next.outcome⟩

/-- There is no answer. -/
def stray (mishap : Mishap) : Unguarded α := Except.error mishap

/-- There is an answer. -/
def answer (r : Reading α) : Unguarded α := Except.ok r

theorem pure_bind (a : α) (f : α → Unguarded β) : pure a >>= f = f a := by
  change (match f a with
    | .error mishap => .error mishap
    | .ok next => .ok ⟨[] ++ next.errors, next.outcome⟩) = f a
  cases f a with
  | error mishap => rfl
  | ok next => rfl

/-- Two readings, one after the other, have an answer if both have. -/
theorem bind_answer {x : Unguarded α} {r : Reading α} {f : α → Unguarded β} {g : α → Reading β}
    (hx : x = answer r) (hf : ∀ a, r.outcome = .ok a → f a = answer (g a)) :
    x >>= f = answer (r >>= g) := by
  subst hx
  obtain ⟨errors, outcome⟩ := r
  cases outcome with
  | error e => rfl
  | ok a =>
    change (match f a with
      | .error mishap => .error mishap
      | .ok next => .ok ⟨errors ++ next.errors, next.outcome⟩) =
        answer ⟨errors ++ (g a).errors, (g a).outcome⟩
    rw [hf a rfl]
    rfl

/-! ## Looking up tokens -/

variable (tokens : List Token)

/-- The index in front of another. -/
def before : Nat → Unguarded Nat
  | 0 => stray .noIndexBefore
  | index + 1 => pure index

/-- The token at an index. -/
def tokenAt (index : Nat) : Unguarded Token :=
  match tokens[index]? with
  | some t => pure t
  | none => stray (.noToken index)

/-- The token at an offset, the last one for all offsets behind it. -/
def lookAt (offset : Nat) : Unguarded Token := do
  let last ← before tokens.length
  tokenAt tokens (min offset last)

def kindAt (offset : Nat) : Unguarded TokenKind := do
  let t ← lookAt tokens offset
  pure t.kind

/-- The value of the literal at an offset. -/
def literalAt (offset : Nat) : Unguarded Value := do
  let t ← tokenAt tokens offset
  match t.denoted? with
  | some denoted => answer ⟨denoted.errors, .ok denoted.value⟩
  | none => stray (.noLiteral t)

def lineEndsBefore (offset : Nat) : Unguarded Bool :=
  if 0 < offset then do
    let index ← before offset
    let t ← lookAt tokens index
    pure t.endsLine
  else
    pure false

/-- Fails at the token at an offset. -/
def mismatch (expected : Expected) (offset : Nat) : Unguarded α := do
  let found ← lookAt tokens offset
  if 0 < offset then do
    let index ← before offset
    let last ← lookAt tokens index
    -- An end of file is reported behind the token in front of it.
    let span := if found.kind = .endOfFile then Span.point last.span.stop else found.span
    answer (Reading.fail ⟨expected, some last.kind, found.kind, span⟩)
  else
    answer (Reading.fail ⟨expected, none, found.kind, found.span⟩)

def expect (kind : TokenKind) (offset : Nat) : Unguarded Nat := do
  let found ← kindAt tokens offset
  if found = kind then pure (offset + 1) else mismatch tokens (.token kind) offset

/-! ## The grammar -/

mutual

/-- The longest expression at an offset. -/
def expressionIn : (steps offset : Nat) → Unguarded (Expr × Nat)
  | 0, _ => stray .unfinished
  | steps + 1, offset => do
    let (first, next) ← operandIn steps offset
    let (links, next) ← linksIn steps next
    pure (.ofChain first links, next)

/-- Operators with their right operands. -/
def linksIn : (steps offset : Nat) → Unguarded (Expr.Links × Nat)
  | 0, _ => stray .unfinished
  | steps + 1, offset => do
    let ended ← lineEndsBefore tokens offset
    if ended then
      pure ([], offset)
    else do
      let kind ← kindAt tokens offset
      match BinaryOp.ofToken? kind with
      | none => pure ([], offset)
      | some op => do
        let ended ← lineEndsBefore tokens (offset + 1)
        -- The operand has to stand on the line of the operator.
        if ended then
          mismatch tokens .expression (offset + 1)
        else do
          let (right, next) ← operandIn steps (offset + 1)
          let (links, next) ← linksIn steps next
          pure ((op, right) :: links, next)

/-- One operand. -/
def operandIn : (steps offset : Nat) → Unguarded (Expr × Nat)
  | 0, _ => stray .unfinished
  | steps + 1, offset => do
    let kind ← kindAt tokens offset
    if kind.isLiteral then do
      let value ← literalAt tokens offset
      pure (.literal value, offset + 1)
    else
      match kind with
      | .bracketOpen => do
        let (items, next) ← argumentsIn steps .bracketClose (offset + 1)
        pure (.array items, next)
      | .braceOpen => do
        let (entries, next) ← entriesIn steps (offset + 1)
        let next ← expect tokens .braceClose next
        pure (.map entries, next)
      | .parenOpen => do
        let (inner, next) ← expressionIn steps (offset + 1)
        let next ← expect tokens .parenClose next
        pure (.group inner, next)
      | .not => do
        let (operand, next) ← operandIn steps (offset + 1)
        pure (.unary .not operand, next)
      | .minus => do
        let (operand, next) ← operandIn steps (offset + 1)
        pure (.unary .negate operand, next)
      | .identifier => do
        let name ← tokenAt tokens offset
        let behind ← kindAt tokens (offset + 1)
        -- Without the parenthesis on its line the name is no call.
        if behind = .parenOpen ∧ ¬ name.endsLine then do
          let (args, next) ← argumentsIn steps .parenClose (offset + 2)
          pure (.call name.value args, next)
        else
          keysIn steps (.ident name.value) (offset + 1)
      | _ => mismatch tokens .expression offset

/-- Expressions with commas between them up to a closing token. -/
def argumentsIn : (steps : Nat) → (close : TokenKind) → (offset : Nat) → Unguarded (List Expr × Nat)
  | 0, _, _ => stray .unfinished
  | steps + 1, close, offset => do
    let kind ← kindAt tokens offset
    if kind = close then
      pure ([], offset + 1)
    else do
      let (items, next) ← expressionsIn steps offset
      let next ← expect tokens close next
      pure (items, next)

/-- One expression, and any number of others after commas. -/
def expressionsIn : (steps offset : Nat) → Unguarded (List Expr × Nat)
  | 0, _ => stray .unfinished
  | steps + 1, offset => do
    let (first, next) ← expressionIn steps offset
    let kind ← kindAt tokens next
    if kind = .comma then do
      let (rest, next) ← expressionsIn steps (next + 1)
      pure (first :: rest, next)
    else
      pure ([first], next)

/-- Entries of a map. -/
def entriesIn : (steps offset : Nat) → Unguarded (List (Expr × Expr) × Nat)
  | 0, _ => stray .unfinished
  | steps + 1, offset => do
    let kind ← kindAt tokens offset
    if kind = .braceClose then
      pure ([], offset)
    else do
      let (key, next) ← expressionIn steps offset
      let next ← expect tokens .colon next
      let (value, next) ← expressionIn steps next
      let kind ← kindAt tokens next
      if kind = .comma then do
        let (rest, next) ← entriesIn steps (next + 1)
        pure ((key, value) :: rest, next)
      else
        pure ([(key, value)], next)

/-- Keys in brackets after an expression. -/
def keysIn : (steps : Nat) → (base : Expr) → (offset : Nat) → Unguarded (Expr × Nat)
  | 0, _, _ => stray .unfinished
  | steps + 1, base, offset => do
    let kind ← kindAt tokens offset
    let ended ← lineEndsBefore tokens offset
    if kind = .bracketOpen ∧ ¬ ended then do
      let (key, next) ← expressionIn steps (offset + 1)
      let next ← expect tokens .bracketClose next
      keysIn steps (.element base key) next
    else
      pure (base, offset)

end

/-- The statements from an offset on. -/
def statementsIn : (steps offset : Nat) → Unguarded Program
  | 0, _ => stray .unfinished
  | steps + 1, offset => do
    let kind ← kindAt tokens offset
    if kind = .endOfFile then
      pure []
    else do
      let (expr, next) ← expressionIn tokens steps offset
      let ended ← lineEndsBefore tokens next
      let behind ← kindAt tokens next
      if ended ∨ behind = .endOfFile then do
        let first ← lookAt tokens offset
        let index ← before next
        let last ← lookAt tokens index
        let rest ← statementsIn steps next
        pure (⟨expr, first.span.merge last.span⟩ :: rest)
      else
        mismatch tokens .endOfLine next

end Unguarded

/-! ## Lists that end -/

namespace TokenStream

/-- A list of tokens, with an end of file behind it if it does not end with one. -/
def closed (tokens : List Token) : List Token :=
  match tokens.getLast? with
  | some last => if last.kind = .endOfFile then tokens
    else tokens ++ [Token.endOfFile last.span.stop]
  | none => [Token.endOfFile 0]

variable {tokens : List Token} {offset next steps depth : Nat}

/-- The stream of a list is the closed list. -/
theorem closed_eq (tokens : List Token) :
    closed tokens = (ofList tokens).body.toList ++ [(ofList tokens).final] := by
  unfold closed ofList
  rcases hlast : tokens.getLast? with _ | last
  · rfl
  · by_cases hkind : last.kind = .endOfFile
    · obtain ⟨front, rfl⟩ := List.getLast?_eq_some_iff.1 hlast
      simp [hkind]
    · simp [hkind]

theorem length_closed (tokens : List Token) :
    (closed tokens).length = (ofList tokens).size + 1 := by
  rw [closed_eq, List.length_append, List.length_singleton, Array.length_toList]
  rfl

theorem token_of_size_le {ts : TokenStream} (h : ts.size ≤ offset) :
    ts.token offset = ts.final := by
  rw [token, Array.getD_eq_getD_getElem?, Array.getElem?_eq_none h]
  rfl

theorem kind_final (tokens : List Token) : (ofList tokens).final.kind = .endOfFile := by
  have hkind := kind_of_size_le (Nat.le_refl (ofList tokens).size)
  rwa [kind, token_of_size_le (Nat.le_refl _)] at hkind

theorem getElem?_closed (h : offset ≤ (ofList tokens).size) :
    (closed tokens)[offset]? = some ((ofList tokens).token offset) := by
  rw [closed_eq]
  rcases Nat.lt_or_eq_of_le h with hlt | rfl
  · rw [List.getElem?_append_left (by rwa [Array.length_toList]), Array.getElem?_toList, token,
      Array.getD_eq_getD_getElem?, Array.getElem?_eq_getElem hlt]
    rfl
  · rw [token_of_size_le (Nat.le_refl _), size, ← Array.length_toList, List.getElem?_concat_length]

end TokenStream

/-! ## What is looked up is there -/

namespace Unguarded

open TokenStream

variable {α : Type} {tokens : List Token} {offset next steps depth : Nat}

theorem before_of_pos (h : 0 < offset) : before offset = pure (offset - 1) := by
  obtain ⟨index, rfl⟩ := Nat.exists_eq_succ_of_ne_zero (Nat.ne_of_gt h)
  rfl

theorem tokenAt_closed (h : offset ≤ (ofList tokens).size) :
    tokenAt (closed tokens) offset = pure ((ofList tokens).token offset) := by
  rw [tokenAt, getElem?_closed h]

/-- Behind the end of the list the last token is found, which is that of the stream. -/
theorem lookAt_closed (tokens : List Token) (offset : Nat) :
    lookAt (closed tokens) offset = pure ((ofList tokens).token offset) := by
  rw [lookAt, length_closed, before, pure_bind]
  -- The stream repeats its last token, the list has it once.
  by_cases hle : offset ≤ (ofList tokens).size
  · rw [Nat.min_eq_left hle, tokenAt_closed hle]
  · have hbehind := Nat.le_of_not_le hle
    rw [Nat.min_eq_right hbehind, tokenAt_closed (Nat.le_refl _), token_of_size_le (Nat.le_refl _),
      token_of_size_le hbehind]

theorem kindAt_closed (tokens : List Token) (offset : Nat) :
    kindAt (closed tokens) offset = pure ((ofList tokens).kind offset) := by
  rw [kindAt, lookAt_closed, pure_bind]
  rfl

theorem lineEndsBefore_closed (tokens : List Token) (offset : Nat) :
    lineEndsBefore (closed tokens) offset = pure ((ofList tokens).lineEndsBefore offset) := by
  rw [lineEndsBefore]
  cases offset with
  | zero => rfl
  | succ index =>
    rw [if_pos (Nat.succ_pos index), before, pure_bind, lookAt_closed, pure_bind]
    rfl

theorem mismatch_closed (tokens : List Token) (expected : Expected) (offset : Nat) :
    (mismatch (closed tokens) expected offset : Unguarded α) =
      answer (Reading.fail ((ofList tokens).mismatch expected offset)) := by
  rw [mismatch, lookAt_closed, pure_bind]
  cases offset with
  | zero => rfl
  | succ index =>
    rw [if_pos (Nat.succ_pos index), before, pure_bind, lookAt_closed, pure_bind]
    rfl

theorem expect_closed (tokens : List Token) (kind : TokenKind) (offset : Nat) :
    expect (closed tokens) kind offset = answer ((ofList tokens).expect kind offset) := by
  rw [expect, kindAt_closed, pure_bind, TokenStream.expect]
  by_cases hkind : (ofList tokens).kind offset = kind
  · rw [if_pos hkind, if_pos hkind]
    rfl
  · rw [if_neg hkind, if_neg hkind, mismatch_closed]

/-! ## Every reading has an answer -/

theorem lt_size_of_kind {kind : TokenKind} (h : (ofList tokens).kind offset = kind)
    (hkind : kind ≠ .endOfFile) : offset < (ofList tokens).size :=
  lt_size (h ▸ hkind)

/-- With so many steps there are answers, and they are those of the grammar at every depth that is
enough. An operand takes a token before it calls on; from a list in brackets it is three calls down
to the next operand. -/
structure Answers (tokens : List Token) (steps : Nat) : Prop where
  expression : ∀ {offset depth}, 4 * ((ofList tokens).size - offset) + 2 ≤ min steps depth →
    expressionIn (closed tokens) steps offset = answer ((ofList tokens).expressionIn depth offset)
  links : ∀ {offset depth}, 4 * ((ofList tokens).size - offset) + 1 ≤ min steps depth →
    linksIn (closed tokens) steps offset = answer ((ofList tokens).linksIn depth offset)
  operand : ∀ {offset depth}, 4 * ((ofList tokens).size - offset) + 1 ≤ min steps depth →
    operandIn (closed tokens) steps offset = answer ((ofList tokens).operandIn depth offset)
  arguments :
      ∀ {close offset depth}, 4 * ((ofList tokens).size - offset) + 4 ≤ min steps depth →
        argumentsIn (closed tokens) steps close offset =
          answer ((ofList tokens).argumentsIn depth close offset)
  expressions : ∀ {offset depth}, 4 * ((ofList tokens).size - offset) + 3 ≤ min steps depth →
    expressionsIn (closed tokens) steps offset = answer ((ofList tokens).expressionsIn depth offset)
  entries : ∀ {offset depth}, 4 * ((ofList tokens).size - offset) + 3 ≤ min steps depth →
    entriesIn (closed tokens) steps offset = answer ((ofList tokens).entriesIn depth offset)
  keys : ∀ {base offset depth}, 4 * ((ofList tokens).size - offset) + 1 ≤ min steps depth →
    keysIn (closed tokens) steps base offset = answer ((ofList tokens).keysIn depth base offset)

theorem answers_expression (ih : Answers tokens steps)
    (h : 4 * ((ofList tokens).size - offset) + 2 ≤ min (steps + 1) depth) :
    expressionIn (closed tokens) (steps + 1) offset =
      answer ((ofList tokens).expressionIn depth offset) := by
  obtain ⟨depth, rfl⟩ := Nat.exists_eq_succ_of_ne_zero (show depth ≠ 0 by omega)
  rw [expressionIn, TokenStream.expressionIn]
  refine bind_answer (ih.operand (by omega)) ?_
  rintro ⟨first, next⟩ hfirst
  have hnext := ((sound tokens depth).operand hfirst).lt
  exact bind_answer (ih.links (by omega)) fun _ _ => rfl

theorem answers_links (ih : Answers tokens steps)
    (h : 4 * ((ofList tokens).size - offset) + 1 ≤ min (steps + 1) depth) :
    linksIn (closed tokens) (steps + 1) offset = answer ((ofList tokens).linksIn depth offset) := by
  obtain ⟨depth, rfl⟩ := Nat.exists_eq_succ_of_ne_zero (show depth ≠ 0 by omega)
  rw [linksIn, TokenStream.linksIn, lineEndsBefore_closed, pure_bind]
  by_cases hbefore : (ofList tokens).lineEndsBefore offset = true
  · rw [if_pos hbefore, if_pos hbefore]
    rfl
  · rw [if_neg hbefore, if_neg hbefore, kindAt_closed, pure_bind]
    cases hop : BinaryOp.ofToken? ((ofList tokens).kind offset) with
    | none => rfl
    | some op =>
      -- An operator is no end of file, so there is a token behind it.
      have hlt := lt_size_of_kind (BinaryOp.token_of_ofToken? hop) op.token_ne_endOfFile
      dsimp only
      rw [lineEndsBefore_closed, pure_bind]
      by_cases hbehind : (ofList tokens).lineEndsBefore (offset + 1) = true
      · rw [if_pos hbehind, if_pos hbehind, mismatch_closed]
      · rw [if_neg hbehind, if_neg hbehind]
        refine bind_answer (ih.operand (by omega)) ?_
        rintro ⟨right, next⟩ hright
        have hnext := ((sound tokens depth).operand hright).lt
        exact bind_answer (ih.links (by omega)) fun _ _ => rfl

theorem answers_arguments {close : TokenKind} (ih : Answers tokens steps)
    (h : 4 * ((ofList tokens).size - offset) + 4 ≤ min (steps + 1) depth) :
    argumentsIn (closed tokens) (steps + 1) close offset =
      answer ((ofList tokens).argumentsIn depth close offset) := by
  obtain ⟨depth, rfl⟩ := Nat.exists_eq_succ_of_ne_zero (show depth ≠ 0 by omega)
  rw [argumentsIn, TokenStream.argumentsIn, kindAt_closed, pure_bind]
  by_cases hclose : (ofList tokens).kind offset = close
  · rw [if_pos hclose, if_pos hclose]
    rfl
  · rw [if_neg hclose, if_neg hclose]
    refine bind_answer (ih.expressions (by omega)) ?_
    rintro ⟨items, next⟩ _
    exact bind_answer (expect_closed tokens close next) fun stop _ => rfl

theorem answers_expressions (ih : Answers tokens steps)
    (h : 4 * ((ofList tokens).size - offset) + 3 ≤ min (steps + 1) depth) :
    expressionsIn (closed tokens) (steps + 1) offset =
      answer ((ofList tokens).expressionsIn depth offset) := by
  obtain ⟨depth, rfl⟩ := Nat.exists_eq_succ_of_ne_zero (show depth ≠ 0 by omega)
  rw [expressionsIn, TokenStream.expressionsIn]
  refine bind_answer (ih.expression (by omega)) ?_
  rintro ⟨first, next⟩ hfirst
  have hnext := ((sound tokens depth).expression hfirst).lt
  dsimp only
  rw [kindAt_closed, pure_bind]
  by_cases hcomma : (ofList tokens).kind next = .comma
  · -- The comma is one more token that is taken.
    have hlt := lt_size_of_kind hcomma (by decide)
    rw [if_pos hcomma, if_pos hcomma]
    exact bind_answer (ih.expressions (by omega)) fun _ _ => rfl
  · rw [if_neg hcomma, if_neg hcomma]
    rfl

theorem answers_entries (ih : Answers tokens steps)
    (h : 4 * ((ofList tokens).size - offset) + 3 ≤ min (steps + 1) depth) :
    entriesIn (closed tokens) (steps + 1) offset =
      answer ((ofList tokens).entriesIn depth offset) := by
  obtain ⟨depth, rfl⟩ := Nat.exists_eq_succ_of_ne_zero (show depth ≠ 0 by omega)
  rw [entriesIn, TokenStream.entriesIn, kindAt_closed, pure_bind]
  by_cases hclose : (ofList tokens).kind offset = .braceClose
  · rw [if_pos hclose, if_pos hclose]
    rfl
  · rw [if_neg hclose, if_neg hclose]
    refine bind_answer (ih.expression (by omega)) ?_
    rintro ⟨key, behindKey⟩ hkey
    have hkeyEnd := ((sound tokens depth).expression hkey).lt
    refine bind_answer (expect_closed tokens .colon behindKey) fun start hcolon => ?_
    obtain ⟨_, rfl⟩ := expect_outcome hcolon
    refine bind_answer (ih.expression (by omega)) ?_
    rintro ⟨value, next⟩ hvalue
    have hvalueEnd := ((sound tokens depth).expression hvalue).lt
    dsimp only
    rw [kindAt_closed, pure_bind]
    by_cases hcomma : (ofList tokens).kind next = .comma
    · have hlt := lt_size_of_kind hcomma (by decide)
      rw [if_pos hcomma, if_pos hcomma]
      exact bind_answer (ih.entries (by omega)) fun _ _ => rfl
    · rw [if_neg hcomma, if_neg hcomma]
      rfl

theorem answers_keys {base : Expr} (ih : Answers tokens steps)
    (h : 4 * ((ofList tokens).size - offset) + 1 ≤ min (steps + 1) depth) :
    keysIn (closed tokens) (steps + 1) base offset =
      answer ((ofList tokens).keysIn depth base offset) := by
  obtain ⟨depth, rfl⟩ := Nat.exists_eq_succ_of_ne_zero (show depth ≠ 0 by omega)
  rw [keysIn, TokenStream.keysIn, kindAt_closed, pure_bind, lineEndsBefore_closed, pure_bind]
  by_cases hopen : (ofList tokens).kind offset = .bracketOpen ∧
    ¬ (ofList tokens).lineEndsBefore offset = true
  · have hlt := lt_size_of_kind hopen.1 (by decide)
    rw [if_pos hopen, if_pos hopen]
    refine bind_answer (ih.expression (by omega)) ?_
    rintro ⟨key, behindKey⟩ hkey
    have hkeyEnd := ((sound tokens depth).expression hkey).lt
    refine bind_answer (expect_closed tokens .bracketClose behindKey) fun next hclose => ?_
    obtain ⟨_, rfl⟩ := expect_outcome hclose
    exact ih.keys (by omega)
  · rw [if_neg hopen, if_neg hopen]
    rfl

/-- A literal denotes something. -/
theorem denoted?_of_literal {t : Token} (h : t.kind.isLiteral = true) :
    ∃ denoted, t.denoted? = some denoted := by
  unfold Token.denoted?
  cases hkind : t.kind with
  | boolLiteral => exact ⟨_, rfl⟩
  | charLiteral => exact ⟨_, rfl⟩
  | dataLiteral => exact ⟨_, rfl⟩
  | stringLiteral => exact ⟨_, rfl⟩
  | numberLiteral =>
    cases Decimal.parse t.value with
    | ok n => exact ⟨_, rfl⟩
    | error e => exact ⟨_, rfl⟩
  | _ =>
    rw [hkind] at h
    cases h

theorem answers_literal (hliteral : ((ofList tokens).kind offset).isLiteral = true) :
    ∃ denoted, ((ofList tokens).token offset).denoted? = some denoted ∧
      literalAt (closed tokens) offset = answer ⟨denoted.errors, .ok denoted.value⟩ := by
  have hlt : offset < (ofList tokens).size := by
    refine lt_size fun hend => ?_
    rw [hend] at hliteral
    cases hliteral
  obtain ⟨denoted, hdenoted⟩ := denoted?_of_literal hliteral
  refine ⟨denoted, hdenoted, ?_⟩
  rw [literalAt, tokenAt_closed (Nat.le_of_lt hlt), pure_bind, hdenoted]

theorem answers_operand (ih : Answers tokens steps)
    (h : 4 * ((ofList tokens).size - offset) + 1 ≤ min (steps + 1) depth) :
    operandIn (closed tokens) (steps + 1) offset =
      answer ((ofList tokens).operandIn depth offset) := by
  obtain ⟨depth, rfl⟩ := Nat.exists_eq_succ_of_ne_zero (show depth ≠ 0 by omega)
  rw [operandIn, TokenStream.operandIn, kindAt_closed, pure_bind]
  by_cases hliteral : ((ofList tokens).kind offset).isLiteral = true
  · obtain ⟨denoted, hdenoted, hvalue⟩ := answers_literal hliteral
    rw [if_pos hliteral, hvalue, hdenoted]
    rfl
  · rw [if_neg hliteral, Token.denoted?_of_not_literal (Bool.eq_false_iff.2 hliteral)]
    -- What is taken here is no end of file, so the list goes on and there are four more steps to
    -- go.
    cases hkind : (ofList tokens).kind offset with
    | bracketOpen =>
      have hlt := lt_size_of_kind hkind (by decide)
      exact bind_answer (ih.arguments (by omega)) fun _ _ => rfl
    | braceOpen =>
      have hlt := lt_size_of_kind hkind (by decide)
      refine bind_answer (ih.entries (by omega)) ?_
      rintro ⟨entries, next⟩ _
      exact bind_answer (expect_closed tokens .braceClose next) fun stop _ => rfl
    | parenOpen =>
      have hlt := lt_size_of_kind hkind (by decide)
      refine bind_answer (ih.expression (by omega)) ?_
      rintro ⟨inner, next⟩ _
      exact bind_answer (expect_closed tokens .parenClose next) fun stop _ => rfl
    | not =>
      have hlt := lt_size_of_kind hkind (by decide)
      exact bind_answer (ih.operand (by omega)) fun _ _ => rfl
    | minus =>
      have hlt := lt_size_of_kind hkind (by decide)
      exact bind_answer (ih.operand (by omega)) fun _ _ => rfl
    | identifier =>
      have hlt := lt_size_of_kind hkind (by decide)
      dsimp only
      rw [tokenAt_closed (Nat.le_of_lt hlt), pure_bind, kindAt_closed, pure_bind]
      by_cases hcall : (ofList tokens).kind (offset + 1) = .parenOpen ∧
        ¬ ((ofList tokens).token offset).endsLine = true
      · rw [if_pos hcall, if_pos hcall]
        exact bind_answer (ih.arguments (by omega)) fun _ _ => rfl
      · rw [if_neg hcall, if_neg hcall]
        exact ih.keys (by omega)
    | _ => exact mismatch_closed tokens .expression offset

/-- With every number of steps. -/
theorem answers (tokens : List Token) (steps : Nat) : Answers tokens steps := by
  induction steps with
  | zero =>
    constructor <;> intros <;> omega
  | succ steps ih =>
    exact {
      expression := answers_expression ih
      links := answers_links ih
      operand := answers_operand ih
      arguments := answers_arguments ih
      expressions := answers_expressions ih
      entries := answers_entries ih
      keys := answers_keys ih }

/-- Statements are read one after the other, and each takes a token. -/
theorem answers_statements {bound : Nat} (h : 4 * ((ofList tokens).size - offset) + 3 ≤ steps)
    (hbound : (ofList tokens).size - offset ≤ bound) :
    statementsIn (closed tokens) steps offset =
      answer ((ofList tokens).statementsIn bound offset) := by
  induction steps generalizing offset bound with
  | zero => omega
  | succ steps ih =>
    rw [statementsIn, kindAt_closed, pure_bind]
    by_cases hend : (ofList tokens).kind offset = .endOfFile
    · rw [if_pos hend]
      cases bound with
      | zero => rfl
      | succ bound =>
        rw [TokenStream.statementsIn, if_pos hend]
        rfl
    · have hlt := lt_size hend
      obtain ⟨bound, rfl⟩ := Nat.exists_eq_succ_of_ne_zero (show bound ≠ 0 by omega)
      rw [if_neg hend, TokenStream.statementsIn, if_neg hend]
      -- The grammar reads each expression with a depth of its own, here the steps that are left
      -- have to do.
      have hdepth : 4 * ((ofList tokens).size - offset) + 2 ≤
          min steps ((ofList tokens).depth offset) := by
        rw [TokenStream.depth]
        omega
      refine bind_answer ((answers tokens steps).expression hdepth) ?_
      rintro ⟨expr, next⟩ hexpr
      have hnext := ((sound tokens _).expression hexpr).lt
      dsimp only
      rw [lineEndsBefore_closed, pure_bind, kindAt_closed, pure_bind]
      by_cases hline : (ofList tokens).lineEndsBefore next = true ∨
        (ofList tokens).kind next = .endOfFile
      · rw [if_pos hline, if_pos hline, lookAt_closed, pure_bind,
          before_of_pos (Nat.zero_lt_of_lt hnext), pure_bind, lookAt_closed, pure_bind]
        exact bind_answer (ih (by omega) (by omega)) fun rest _ => rfl
      · rw [if_neg hline, if_neg hline, mismatch_closed]

end Unguarded

/-! ## Readings move on -/

section Progress

open TokenStream

variable {tokens : List Token} {terminals : List Terminal} {n m : Nat}

/-- Nothing is spelled by the end of file. -/
theorem Spells.le_size (h : Spells tokens terminals n m) (hlt : n < m) :
    m ≤ (ofList tokens).size := by
  obtain ⟨last, rfl⟩ := Nat.exists_eq_succ_of_ne_zero (Nat.ne_zero_of_lt hlt)
  obtain ⟨t, ht, hkind⟩ := h.token (Nat.le_of_lt_succ hlt) (Nat.lt_succ_self last)
  refine lt_size ?_
  rwa [kind, token_of_getElem? ht]

theorem Spells.lt_of_items {items : List Expr} (hne : items ≠ [])
    (h : Spells tokens (Expr.yieldItems items) n m) : n < m := by
  obtain ⟨e, rest, rfl⟩ := List.exists_cons_of_ne_nil hne
  cases rest with
  | nil => exact h.lt
  | cons second others =>
    obtain ⟨k, hfirst, hrest⟩ := h.split
    exact Nat.lt_of_lt_of_le hfirst.lt hrest.le

end Progress

/-- **Reading needs no guards.** Whatever the tokens are and wherever the reading starts, looking
tokens up by their index, evaluating literals and calling on without a bound always comes to an
answer, and it is what the grammar gives. A reading that succeeds has moved on, and not beyond the
end of file that closes the list. -/
theorem TokenStream.reading_needs_no_guard (tokens : List Token) :
    (∃ closing, (closed tokens).getLast? = some closing ∧ closing.kind = .endOfFile) ∧
      (∀ offset steps, (ofList tokens).depth offset ≤ steps →
        Unguarded.expressionIn (closed tokens) steps offset =
          Unguarded.answer ((ofList tokens).expression offset) ∧
        Unguarded.expressionsIn (closed tokens) steps offset =
          Unguarded.answer ((ofList tokens).expressions offset)) ∧
      (∀ steps, (ofList tokens).depth 0 ≤ steps →
        Unguarded.statementsIn (closed tokens) steps 0 =
          Unguarded.answer (Program.ofTokens tokens)) ∧
      (∀ offset e next, ((ofList tokens).expression offset).outcome = .ok (e, next) →
        offset < next ∧ next ≤ (closed tokens).length - 1) ∧
      ∀ offset items next, ((ofList tokens).expressions offset).outcome = .ok (items, next) →
        offset < next ∧ next ≤ (closed tokens).length - 1 := by
  have hlast : (closed tokens).length - 1 = (ofList tokens).size := by
    rw [length_closed, Nat.add_sub_cancel]
  refine ⟨⟨(ofList tokens).final, ?_, kind_final tokens⟩, fun offset steps h => ?_,
    fun steps h => ?_, fun offset e next h => ?_, fun offset items next h => ?_⟩
  · rw [closed_eq, List.getLast?_concat]
  · have hdepth : (ofList tokens).depth offset ≤ min steps ((ofList tokens).depth offset) :=
      Nat.le_min.2 ⟨h, Nat.le_refl _⟩
    have hcount : (ofList tokens).depth offset = 4 * ((ofList tokens).size - offset) + 4 := rfl
    have hanswers := Unguarded.answers tokens steps
    exact ⟨hanswers.expression (by omega), hanswers.expressions (by omega)⟩
  · rw [TokenStream.depth] at h
    exact Unguarded.answers_statements (by omega) (Nat.sub_le _ _)
  · have hspells := (sound tokens _).expression h
    rw [hlast]
    exact ⟨hspells.lt, hspells.le_size hspells.lt⟩
  · obtain ⟨hne, hspells⟩ := (sound tokens _).expressions h
    have hlt := hspells.lt_of_items hne
    rw [hlast]
    exact ⟨hlt, hspells.le_size hlt⟩

/-- A name, an end of file in the middle, a newline and `-'ab'`, with nothing to close the list. -/
def TokenStream.strayTokens : List Token :=
  [⟨.identifier, "x", false, default⟩, ⟨.endOfFile, "", true, default⟩,
    ⟨.newline, "", true, default⟩,
    ⟨.minus, "-", false, default⟩, ⟨.charLiteral, "ab", false, default⟩]

/-- The list is closed at index five. Read from the front it is a program of one name, from the
newline and from far behind the end it fails, and the faulty literal behind the sign is the last
token that is read. -/
theorem TokenStream.reading_needs_no_guard_strayTokens :
    Unguarded.statementsIn (closed strayTokens) 24 0 =
      Unguarded.answer ⟨[], .ok [⟨.ident "x", default⟩]⟩ ∧
      Unguarded.expressionIn (closed strayTokens) 24 2 =
        Unguarded.answer ⟨[], .error ⟨.expression, some .endOfFile, .newline, default⟩⟩ ∧
      Unguarded.expressionsIn (closed strayTokens) 24 70 =
        Unguarded.answer ⟨[], .error ⟨.expression, some .endOfFile, .endOfFile, default⟩⟩ ∧
      (∃ e, ((ofList strayTokens).expression 3).outcome = .ok (e, 5) ∧
        5 ≤ (closed strayTokens).length - 1) ∧
      ∃ items, ((ofList strayTokens).expressions 3).outcome = .ok (items, 5) ∧
        5 ≤ (closed strayTokens).length - 1 := by
  obtain ⟨_, hread, hprogram, hmoves, hmoves'⟩ := reading_needs_no_guard strayTokens
  refine ⟨?_, ?_, ?_, ⟨_, by with_unfolding_all rfl, (hmoves 3 _ 5 (by with_unfolding_all rfl)).2⟩,
    _, by with_unfolding_all rfl, (hmoves' 3 _ 5 (by with_unfolding_all rfl)).2⟩
  · rw [hprogram 24 (by decide)]
    with_unfolding_all rfl
  · rw [(hread 2 24 (by decide)).1]
    with_unfolding_all rfl
  · rw [(hread 70 24 (by decide)).2]
    with_unfolding_all rfl

end LineScript
