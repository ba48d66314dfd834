import LineScript.Proofs.Spelling
import LineScript.Proofs.Expr.WellFormed

/-!
# What is spelled is read

The converse of `Sound`: where the tokens from one offset up to another spell a well-formed
expression, and the expression cannot go on behind them, it is read from them, with what is wrong
with the literals among them (`ReadsExpression`). An expression goes on with an operator, and a name
with a key or with the parenthesis of a call, unless the line ends before.

The functions of the grammar read operands where a tree has operators, so the induction is on the
tree but says of each tree that all the operands of its chain are read (`Complete`). Elements are
nested to the left while keys are read from left to right. For these the induction says how reading
goes on behind what was read (`LeadsOn`), not where it ends.

Depths are counted in tokens that are left: four for an operand, and for each level above it one
more.
-/

set_option autoImplicit false

namespace LineScript

open TokenStream

/-! ## Terminals, one after the other -/

/-- A terminal that is always written. -/
def Terminal.isWritten : Terminal → Bool
  | .trailingComma => false
  | _ => true

/-- What the token at an offset is if it stands for a terminal. -/
structure Stands (tokens : List Token) (terminal : Terminal) (n : Nat) : Prop where
  lt : n < (ofList tokens).size
  fits : terminal.Fits ((ofList tokens).token n)
  before : terminal.joinsBefore = true → (ofList tokens).lineEndsBefore n = false
  behind : terminal.joinsBehind = true → (ofList tokens).lineEndsBefore (n + 1) = false

/-- A token that is no end of file is one of the list. It pays for the depth that reading it takes.
-/
theorem TokenStream.lt_size {tokens : List Token} {n : Nat}
    (h : (ofList tokens).kind n ≠ .endOfFile) : n < (ofList tokens).size := by
  by_contra hle
  exact h (kind_of_size_le (Nat.le_of_not_lt hle))

/-- Behind the tokens of a text stands the end of file that closes them. -/
theorem TokenStream.kind_length {body : List Token} {closing : Token}
    (hclosing : closing.kind = .endOfFile) :
    (ofList (body ++ [closing])).kind body.length = .endOfFile := by
  rw [kind, token_of_getElem? List.getElem?_concat_length]
  exact hclosing

namespace Spells

variable {tokens : List Token} {first : Terminal} {front rest : List Terminal} {n m : Nat}

/-- Where one part of the terminals ends, the next one starts. The offset in between is where
reading is handed over. -/
theorem split (h : Spells tokens (front ++ rest) n m) :
    ∃ k, Spells tokens front n k ∧ Spells tokens rest k m := by
  induction front generalizing n with
  | nil => exact ⟨n, .nil, h⟩
  | cons first front ih =>
    cases h with
    | cons ht hend hfits hbefore hbehind hrest =>
      obtain ⟨k, hfront, hrest⟩ := ih hrest
      exact ⟨k, .cons ht hend hfits hbefore hbehind hfront, hrest⟩
    | missing hrest =>
      obtain ⟨k, hfront, hrest⟩ := ih hrest
      exact ⟨k, .missing hfront, hrest⟩

/-- A terminal that is always written has the token at the offset to itself. Only the comma behind
the last entry of a map may be missing. -/
theorem uncons (h : Spells tokens (first :: rest) n m) (hfirst : first.isWritten = true) :
    Stands tokens first n ∧ Spells tokens rest (n + 1) m := by
  cases h with
  | missing => cases hfirst
  | cons ht hend hfits hbefore hbehind hrest =>
    have htoken := token_of_getElem? ht
    refine ⟨⟨lt_size ?_, ?_, ?_, ?_⟩, hrest⟩
    · rwa [kind, htoken]
    · rwa [htoken]
    · intro hjoins
      cases n with
      | zero => rfl
      | succ k =>
        obtain ⟨u, hu⟩ : ∃ u, tokens[k]? = some u :=
          ⟨_, List.getElem?_eq_getElem (Nat.lt_of_succ_lt (List.getElem?_eq_some_iff.1 ht).1)⟩
        rw [lineEndsBefore, token_of_getElem? hu]
        exact hbefore hjoins k u rfl hu
    · intro hjoins
      rw [lineEndsBefore, htoken]
      exact hbehind hjoins

/-- The last of several terminals. -/
theorem unsnoc {last : Terminal} (h : Spells tokens (front ++ [last]) n m)
    (hlast : last.isWritten = true) :
    ∃ k, Spells tokens front n k ∧ Stands tokens last k ∧ m = k + 1 := by
  obtain ⟨k, hfront, hrest⟩ := h.split
  obtain ⟨hstands, hnil⟩ := hrest.uncons hlast
  exact ⟨k, hfront, hstands, hnil.eq_of_nil.symm⟩

end Spells

/-! ## The first token of an expression -/

/-- The tokens that denote a value. No other token is ever found faulty. -/
def TokenKind.isLiteral : TokenKind → Bool
  | .boolLiteral | .charLiteral | .dataLiteral | .numberLiteral | .stringLiteral => true
  | _ => false

/-- Only literals denote a value. -/
theorem Token.denoted?_of_not_literal {t : Token} (h : t.kind.isLiteral = false) :
    t.denoted? = none := by
  unfold denoted?
  cases hkind : t.kind <;> first | rfl | (rw [hkind] at h; cases h)

/-- As above, for a token whose kind is known, which is how the operand reader decides against a
literal. -/
theorem Token.denoted?_of_kind {t : Token} {kind : TokenKind} (h : t.kind = kind)
    (hkind : kind.isLiteral = false) : t.denoted? = none :=
  denoted?_of_not_literal (h ▸ hkind)

/-- What an expression can start with. -/
def TokenKind.starts (kind : TokenKind) : Bool :=
  kind.isLiteral || [.identifier, .bracketOpen, .braceOpen, .parenOpen, .not, .minus].contains kind

/-- The terminals of these tokens, where they stand in front. -/
def Terminal.starts : Terminal → Bool
  | .literal _ => true
  | .name _ => true
  | .sign kind => kind.starts
  | _ => false

/-- No expression starts with the comma that may be missing. -/
theorem Terminal.isWritten_of_starts {terminal : Terminal} (h : terminal.starts = true) :
    terminal.isWritten = true := by
  cases terminal with
  | trailingComma => cases h
  | _ => rfl

/-- The text of an expression starts with the text of its leftmost operand, so closing brackets and
commas never stand first. -/
theorem Expr.yield_starts (e : Expr) :
    ∃ first rest, e.yield = first :: rest ∧ first.starts = true := by
  induction e using Expr.induct with
  | element base key ihb _ =>
    obtain ⟨first, rest, hbase, hfirst⟩ := ihb
    exact ⟨first, _, by rw [yield, hbase]; rfl, hfirst⟩
  | binary left op right ihl _ =>
    obtain ⟨first, rest, hleft, hfirst⟩ := ihl
    exact ⟨first, _, by rw [yield, hleft]; rfl, hfirst⟩
  | unary op => cases op <;> exact ⟨_, _, rfl, rfl⟩
  | _ => exact ⟨_, _, rfl, rfl⟩

/-- The same of the token that stands for the first terminal. -/
theorem Terminal.kind_starts {terminal : Terminal} {t : Token} (h : terminal.starts = true)
    (hfits : terminal.Fits t) : t.kind.starts = true := by
  cases terminal with
  | sign kind =>
    obtain rfl : t.kind = kind := hfits
    exact h
  | literal value =>
    obtain ⟨denoted, hdenoted, _⟩ := hfits
    have hliteral : t.kind.isLiteral = true := by
      by_contra hnot
      rw [Token.denoted?_of_not_literal (Bool.eq_false_iff.2 hnot)] at hdenoted
      cases hdenoted
    rw [TokenKind.starts, hliteral, Bool.true_or]
  | name text =>
    rw [hfits.1]
    rfl
  | _ => cases h

/-- What tells a list with elements from an empty one: the token in front of an expression is no
closing bracket. -/
theorem Spells.kind_starts {tokens : List Token} {e : Expr} {n m : Nat}
    (h : Spells tokens e.yield n m) : ((ofList tokens).kind n).starts = true := by
  obtain ⟨first, rest, hyield, hfirst⟩ := e.yield_starts
  rw [hyield] at h
  obtain ⟨hstands, _⟩ := h.uncons (Terminal.isWritten_of_starts hfirst)
  exact Terminal.kind_starts hfirst hstands.fits

/-! ## Literals on the way -/

/-- The faults of a literal are those found on the way to its value. -/
theorem Token.faults_of_denoted? {t : Token} {denoted : Denoted} (h : t.denoted? = some denoted) :
    t.faults = denoted.errors := by
  rw [faults, h]

/-- A token without a value has no faults. -/
theorem Token.faults_of_none {t : Token} (h : t.denoted? = none) : t.faults = [] := by
  rw [faults, h]

/-- What is wrong with the literals from one offset up to another. -/
def faultsIn (tokens : List Token) (n m : Nat) : List LiteralError :=
  ((tokens.take m).drop n).flatMap Token.faults

/-- Between an offset and itself stands no token. -/
theorem faultsIn_self (tokens : List Token) (n : Nat) : faultsIn tokens n n = [] := by
  rw [faultsIn, List.drop_of_length_le (List.length_take_le n tokens)]
  rfl

/-- The faults of two parts, one after the other, are those of both together. It is what makes
readings compose. -/
theorem faultsIn_append {tokens : List Token} {n k m : Nat} (hnk : n ≤ k) (hkm : k ≤ m) :
    faultsIn tokens n k ++ faultsIn tokens k m = faultsIn tokens n m := by
  have htake : tokens.take k = (tokens.take m).take k := by rw [List.take_take, Nat.min_eq_left hkm]
  obtain ⟨d, rfl⟩ := Nat.exists_eq_add_of_le hnk
  rw [faultsIn, faultsIn, faultsIn, htake, ← List.flatMap_append, ← List.drop_drop, List.drop_take,
    Nat.add_sub_cancel_left, List.take_append_drop]

/-- A single token, also where it is the end of file behind the list, which has no faults. -/
theorem faultsIn_one (tokens : List Token) (n : Nat) :
    faultsIn tokens n (n + 1) = ((ofList tokens).token n).faults := by
  obtain ⟨closing, hclosing, htoken⟩ := token_ofList tokens
  rw [faultsIn, List.drop_take, Nat.add_sub_cancel_left, htoken]
  rcases htokens : tokens[n]? with _ | t
  · have hnone : closing.faults = [] := Token.faults_of_none (Token.denoted?_of_kind hclosing rfl)
    rw [List.drop_of_length_le (List.getElem?_eq_none_iff.1 htokens), Option.getD_none, hnone]
    rfl
  · obtain ⟨hlt, rfl⟩ := List.getElem?_eq_some_iff.1 htokens
    rw [List.drop_eq_getElem_cons hlt, List.take_succ_cons, List.take_zero, List.flatMap_singleton]
    rfl

/-- All tokens of a program but the closing one. -/
theorem faultsIn_length (body : List Token) (closing : Token) :
    faultsIn (body ++ [closing]) 0 body.length = body.flatMap Token.faults := by
  rw [faultsIn, List.take_left, List.drop_zero]

/-! ## Readings that succeed -/

/-- The reading from one offset up to another gives a result and notes what is wrong with the
literals in between. -/
def Reads {α : Type} (tokens : List Token) (n m : Nat) (r : Reading α) (a : α) : Prop :=
  n ≤ m ∧ r = ⟨faultsIn tokens n m, .ok a⟩

namespace Reads

variable {α β : Type} {tokens : List Token} {n k m : Nat} {r : Reading α} {a : α} {b : β}

/-- Reading nothing is no step and notes nothing. -/
theorem pure (tokens : List Token) (n : Nat) (a : α) : Reads tokens n n (Pure.pure a) a :=
  ⟨Nat.le_refl n, by rw [faultsIn_self]; rfl⟩

/-- Two readings, the second from where the first ended: the offsets and the faults are put
together. -/
theorem bind {f : α → Reading β} (hr : Reads tokens n k r a) (hf : Reads tokens k m (f a) b) :
    Reads tokens n m (r >>= f) b := by
  obtain ⟨hnk, rfl⟩ := hr
  obtain ⟨hkm, hf⟩ := hf
  refine ⟨Nat.le_trans hnk hkm, ?_⟩
  change (⟨_ ++ (f a).errors, (f a).outcome⟩ : Reading β) = _
  rw [hf, faultsIn_append hnk hkm]

/-- A token in front that is no literal has no faults. -/
theorem skip (h : Reads tokens (n + 1) m r a) (hnone : ((ofList tokens).token n).denoted? = none) :
    Reads tokens n m r a := by
  obtain ⟨hle, rfl⟩ := h
  refine ⟨Nat.le_of_succ_le hle, ?_⟩
  rw [← faultsIn_append (Nat.le_succ n) hle, faultsIn_one, Token.faults_of_none hnone,
    List.nil_append]

/-- A sign that is where the grammar wants it. -/
theorem expect {kind : TokenKind} (h : (ofList tokens).kind n = kind)
    (hkind : kind.isLiteral = false) :
    Reads tokens n (n + 1) ((ofList tokens).expect kind n) (n + 1) := by
  rw [TokenStream.expect, if_pos h]
  exact (Reads.pure tokens (n + 1) (n + 1)).skip (Token.denoted?_of_kind h hkind)

end Reads

/-! ## Where reading stops -/

variable {tokens : List Token} {n m depth : Nat}

/-- A name that ends before the offset has no key and no parenthesis behind it. -/
def OperandStops (ts : TokenStream) (m : Nat) : Prop :=
  ts.lineEndsBefore m = true ∨ ts.kind m ≠ .bracketOpen ∧ ts.kind m ≠ .parenOpen

/-- An expression that ends before the offset does not go on behind it. -/
def ExpressionStops (ts : TokenStream) (m : Nat) : Prop :=
  ts.lineEndsBefore m = true ∨
    (ts.kind m ≠ .bracketOpen ∧ ts.kind m ≠ .parenOpen) ∧ BinaryOp.ofToken? (ts.kind m) = none

/-- Where an expression stops, its last operand does. -/
theorem ExpressionStops.operandStops {ts : TokenStream} (h : ExpressionStops ts m) :
    OperandStops ts m :=
  h.imp_right And.left

/-- A token that is neither an operator nor an opening bracket ends an expression, whatever line it
stands on. -/
theorem expressionStops_of_kind {ts : TokenStream} {kind : TokenKind} (h : ts.kind m = kind)
    (hkind : (kind ≠ .bracketOpen ∧ kind ≠ .parenOpen) ∧ BinaryOp.ofToken? kind = none) :
    ExpressionStops ts m := by
  subst h
  exact Or.inr hkind

/-- An operator is not taken for a key or a call behind a name. -/
theorem BinaryOp.token_ne_open (op : BinaryOp) :
    op.token ≠ .bracketOpen ∧ op.token ≠ .parenOpen := by
  rcases op with (_ | _ | _ | _ | _) | (_ | _ | _ | _ | _ | _) | _ | _ | _ | (_ | _ | _ | _ | _) <;>
    decide

/-- An operator is not taken for a literal. -/
theorem BinaryOp.token_isLiteral (op : BinaryOp) : op.token.isLiteral = false := by
  rcases op with (_ | _ | _ | _ | _) | (_ | _ | _ | _ | _ | _) | _ | _ | _ | (_ | _ | _ | _ | _) <;>
    rfl

/-- Whatever spells the operand is read as the operand, if it stops there. -/
def ReadsOperand (tokens : List Token) (e : Expr) : Prop :=
  ∀ ⦃n m depth⦄, Spells tokens e.yield n m → OperandStops (ofList tokens) m →
    4 * ((ofList tokens).size - n) ≤ depth →
    Reads tokens n m ((ofList tokens).operandIn depth n) (e, m)

/-- Whatever spells the expression is read as the expression, if it stops there. -/
def ReadsExpression (tokens : List Token) (e : Expr) : Prop :=
  ∀ ⦃n m depth⦄, Spells tokens e.yield n m → ExpressionStops (ofList tokens) m →
    4 * ((ofList tokens).size - n) + 1 ≤ depth →
    Reads tokens n m ((ofList tokens).expressionIn depth n) (e, m)

/-! ## Chains of operators -/

/-- An operand stops in front of an operator, and where the expression stops. -/
theorem operandStops_of_links {links : Expr.Links} (h : Spells tokens (Expr.yieldLinks links) n m)
    (hstop : ExpressionStops (ofList tokens) m) : OperandStops (ofList tokens) n := by
  cases links with
  | nil =>
    obtain rfl := h.eq_of_nil
    exact hstop.operandStops
  | cons link links =>
    obtain ⟨hop, _⟩ := h.uncons rfl
    have hkind : (ofList tokens).kind n = link.1.token := hop.fits
    right
    rw [hkind]
    exact link.1.token_ne_open

/-- The links of a chain are read one by one. Each operand stops because an operator stands behind
it, or because the whole expression does. -/
theorem reads_links {links : Expr.Links} (hoperands : ∀ link ∈ links, ReadsOperand tokens link.2)
    (h : Spells tokens (Expr.yieldLinks links) n m) (hstop : ExpressionStops (ofList tokens) m)
    (hdepth : 4 * ((ofList tokens).size - n) ≤ depth) :
    Reads tokens n m ((ofList tokens).linksIn depth n) (links, m) := by
  induction links generalizing n depth with
  | nil =>
    obtain rfl := h.eq_of_nil
    have hnone := Reads.pure tokens n (([], n) : Expr.Links × Nat)
    cases depth with
    | zero => rwa [linksIn]
    | succ depth =>
      rw [linksIn]
      split
      · exact hnone
      · rename_i hline
        rcases hstop with hends | ⟨_, hop⟩
        · exact absurd hends hline
        · rw [hop]
          exact hnone
  | cons link links ih =>
    obtain ⟨op, right⟩ := link
    obtain ⟨hoperand, hothers⟩ := List.forall_mem_cons.1 hoperands
    obtain ⟨hop, hbehind⟩ := h.uncons rfl
    obtain ⟨k, hright, hrest⟩ := hbehind.split
    have hlt := hop.lt
    have hle := hright.le
    have hkind : (ofList tokens).kind n = op.token := hop.fits
    obtain ⟨depth, rfl⟩ := Nat.exists_eq_succ_of_ne_zero (show depth ≠ 0 by omega)
    rw [linksIn, hop.before rfl, hkind, op.ofToken?_token]
    simp only [hop.behind rfl, Bool.false_eq_true, if_false]
    refine Reads.skip ?_ (Token.denoted?_of_kind hkind op.token_isLiteral)
    refine (hoperand hright (operandStops_of_links hrest hstop) (by omega)).bind ?_
    refine (ih hothers hrest (by omega)).bind ?_
    exact Reads.pure tokens m ((op, right) :: links, m)

/-- An expression is read if the operands of its chain are. -/
theorem readsExpression_of_operands {e : Expr} (he : e.WellFormed)
    (hfirst : ReadsOperand tokens e.first) (hlinks : ∀ link ∈ e.links, ReadsOperand tokens link.2) :
    ReadsExpression tokens e := by
  intro n m depth h hstop hdepth
  rw [e.yield_eq_links] at h
  obtain ⟨k, hspells, hrest⟩ := h.split
  have hle := hspells.le
  obtain ⟨depth, rfl⟩ := Nat.exists_eq_succ_of_ne_zero (Nat.ne_zero_of_lt hdepth)
  rw [expressionIn]
  refine (hfirst hspells (operandStops_of_links hrest hstop) (by omega)).bind ?_
  refine (reads_links hlinks hrest hstop (by omega)).bind ?_
  simp only [Expr.ofChain_links he]
  exact Reads.pure tokens m (e, m)

/-! ## Lists of expressions -/

/-- A list of at least one expression that stops behind its last one, without a comma. -/
theorem reads_expressions {items : List Expr} (hitems : ∀ e ∈ items, ReadsExpression tokens e)
    (hne : items ≠ []) (h : Spells tokens (Expr.yieldItems items) n m)
    (hstop : ExpressionStops (ofList tokens) m) (hcomma : (ofList tokens).kind m ≠ .comma)
    (hdepth : 4 * ((ofList tokens).size - n) + 2 ≤ depth) :
    Reads tokens n m ((ofList tokens).expressionsIn depth n) (items, m) := by
  induction items generalizing n depth with
  | nil => exact absurd rfl hne
  | cons e rest ih =>
    obtain ⟨he, hrest⟩ := List.forall_mem_cons.1 hitems
    obtain ⟨depth, rfl⟩ := Nat.exists_eq_succ_of_ne_zero (Nat.ne_zero_of_lt hdepth)
    rw [expressionsIn]
    cases rest with
    | nil =>
      refine (he h hstop (by omega)).bind ?_
      simp only [hcomma, if_false]
      exact Reads.pure tokens m ([e], m)
    | cons second others =>
      rw [Expr.yieldItems] at h
      obtain ⟨k, hfirst, h⟩ := h.split
      obtain ⟨hstands, h⟩ := h.uncons rfl
      have hkind : (ofList tokens).kind k = .comma := hstands.fits
      have hle := hfirst.le
      have hlt := hstands.lt
      refine (he hfirst (expressionStops_of_kind hkind (by decide)) (by omega)).bind ?_
      simp only [hkind, if_true]
      refine Reads.skip ?_ (Token.denoted?_of_kind hkind rfl)
      refine (ih hrest (List.cons_ne_nil _ _) h (by omega)).bind ?_
      exact Reads.pure tokens m (e :: second :: others, m)

/-- With the closing bracket. What comes first decides between no element and a list of them, and no
expression starts with the bracket that would close it. -/
theorem reads_arguments {items : List Expr} {close : TokenKind}
    (hclose : close = .bracketClose ∨ close = .parenClose)
    (hitems : ∀ e ∈ items, ReadsExpression tokens e)
    (h : Spells tokens (Expr.yieldItems items ++ [.sign close]) n m)
    (hdepth : 4 * ((ofList tokens).size - n) + 3 ≤ depth) :
    Reads tokens n m ((ofList tokens).argumentsIn depth close n) (items, m) := by
  obtain ⟨k, hspells, hstands, rfl⟩ := h.unsnoc rfl
  have hkind : (ofList tokens).kind k = close := hstands.fits
  obtain ⟨hliteral, hstarts, hcomma, hends⟩ : close.isLiteral = false ∧
      close.starts = false ∧ close ≠ .comma ∧
      (close ≠ .bracketOpen ∧ close ≠ .parenOpen) ∧ BinaryOp.ofToken? close = none := by
    rcases hclose with rfl | rfl <;> decide
  obtain ⟨depth, rfl⟩ := Nat.exists_eq_succ_of_ne_zero (Nat.ne_zero_of_lt hdepth)
  rw [argumentsIn]
  cases items with
  | nil =>
    obtain rfl := hspells.eq_of_nil
    rw [if_pos hkind]
    exact (Reads.pure tokens (n + 1) _).skip (Token.denoted?_of_kind hkind hliteral)
  | cons e rest =>
    have hfirst : ((ofList tokens).kind n).starts = true := by
      cases rest with
      | nil => exact hspells.kind_starts
      | cons second others =>
        obtain ⟨_, hfirst, _⟩ := hspells.split
        exact hfirst.kind_starts
    have hopen : (ofList tokens).kind n ≠ close := by
      rintro rfl
      rw [hstarts] at hfirst
      cases hfirst
    rw [if_neg hopen]
    refine (reads_expressions hitems (List.cons_ne_nil _ _) hspells
      (expressionStops_of_kind hkind hends) (hkind ▸ hcomma) (by omega)).bind ?_
    refine (Reads.expect hkind hliteral).bind ?_
    exact Reads.pure tokens (k + 1) (e :: rest, k + 1)

/-- The first entry of a map, and a comma behind it unless it is the last. -/
theorem Spells.entry {key value : Expr} {rest : List (Expr × Expr)}
    (h : Spells tokens (Expr.yieldEntries ((key, value) :: rest)) n m) :
    ∃ k c, Spells tokens key.yield n k ∧ Stands tokens (.sign .colon) k ∧
      Spells tokens value.yield (k + 1) c ∧
      (Stands tokens (.sign .comma) c ∧ Spells tokens (Expr.yieldEntries rest) (c + 1) m ∨
        rest = [] ∧ c = m) := by
  cases rest with
  | nil =>
    rw [Expr.yieldEntries, List.append_assoc, List.cons_append] at h
    obtain ⟨k, hkey, h⟩ := h.split
    obtain ⟨hcolon, h⟩ := h.uncons rfl
    obtain ⟨c, hvalue, h⟩ := h.split
    refine ⟨k, c, hkey, hcolon, hvalue, ?_⟩
    cases h with
    | cons ht hend hfits _ _ hrest =>
      have hcomma : Spells tokens [.sign .comma] c (c + 1) :=
        .cons ht hend hfits (fun hjoin => absurd hjoin Bool.false_ne_true)
          (fun hjoin => absurd hjoin Bool.false_ne_true) .nil
      exact Or.inl ⟨(hcomma.uncons rfl).1, hrest⟩
    | missing hrest => exact Or.inr ⟨rfl, hrest.eq_of_nil⟩
  | cons next others =>
    rw [Expr.yieldEntries, List.append_assoc, List.cons_append] at h
    obtain ⟨k, hkey, h⟩ := h.split
    obtain ⟨hcolon, h⟩ := h.uncons rfl
    obtain ⟨c, hvalue, h⟩ := h.split
    exact ⟨k, c, hkey, hcolon, hvalue, Or.inl (h.uncons rfl)⟩

/-- Entries up to the closing brace, with or without the comma behind the last one. -/
theorem reads_entries {entries : List (Expr × Expr)}
    (hentries : ∀ p ∈ entries, ReadsExpression tokens p.1 ∧ ReadsExpression tokens p.2)
    (h : Spells tokens (Expr.yieldEntries entries) n m)
    (hclose : (ofList tokens).kind m = .braceClose)
    (hdepth : 4 * ((ofList tokens).size - n) + 2 ≤ depth) :
    Reads tokens n m ((ofList tokens).entriesIn depth n) (entries, m) := by
  obtain ⟨depth, rfl⟩ := Nat.exists_eq_succ_of_ne_zero (Nat.ne_zero_of_lt hdepth)
  induction entries generalizing n depth with
  | nil =>
    obtain rfl := h.eq_of_nil
    rw [entriesIn, if_pos hclose]
    exact Reads.pure tokens n ([], n)
  | cons entry rest ih =>
    obtain ⟨key, value⟩ := entry
    obtain ⟨⟨hkey, hvalue⟩, hrest⟩ := List.forall_mem_cons.1 hentries
    obtain ⟨k, c, hkeySpells, hcolon, hvalueSpells, hmore⟩ := h.entry
    have hcolonKind : (ofList tokens).kind k = .colon := hcolon.fits
    have hopen : (ofList tokens).kind n ≠ .braceClose := by
      intro hkind
      have hstarts := hkeySpells.kind_starts
      rw [hkind] at hstarts
      cases hstarts
    have hlt := hcolon.lt
    have hle := hkeySpells.le
    have hlt' := hvalueSpells.lt
    rw [entriesIn, if_neg hopen]
    refine (hkey hkeySpells (expressionStops_of_kind hcolonKind (by decide)) (by omega)).bind ?_
    refine (Reads.expect hcolonKind rfl).bind ?_
    rcases hmore with ⟨hcomma, hothers⟩ | ⟨rfl, rfl⟩
    · have hcommaKind : (ofList tokens).kind c = .comma := hcomma.fits
      have hcommaLt := hcomma.lt
      obtain ⟨depth, rfl⟩ := Nat.exists_eq_succ_of_ne_zero (show depth ≠ 0 by omega)
      refine (hvalue hvalueSpells (expressionStops_of_kind hcommaKind (by decide))
        (by omega)).bind ?_
      simp only [hcommaKind, if_true]
      refine Reads.skip ?_ (Token.denoted?_of_kind hcommaKind rfl)
      refine (ih hrest hothers depth (by omega)).bind ?_
      exact Reads.pure tokens m ((key, value) :: rest, m)
    · refine (hvalue hvalueSpells (expressionStops_of_kind hclose (by decide)) (by omega)).bind ?_
      simp only [hclose, reduceCtorEq, if_false]
      exact Reads.pure tokens c ([(key, value)], c)

/-! ## Operands -/

/-- A token leaves depth enough for what stands behind it. -/
theorem Stands.descend {terminal : Terminal} (h : Stands tokens terminal n)
    (hdepth : 4 * ((ofList tokens).size - n) ≤ depth) :
    ∃ rest, depth = rest + 1 ∧ 4 * ((ofList tokens).size - (n + 1)) + 3 ≤ rest := by
  have hlt := h.lt
  exact ⟨depth - 1, by omega, by omega⟩

/-- The only operand that notes faults of its own; the others have those of their parts. -/
theorem readsOperand_literal (value : Value) : ReadsOperand tokens (.literal value) := by
  intro n m depth h _ hdepth
  obtain ⟨hstands, hnil⟩ := h.uncons rfl
  obtain rfl := hnil.eq_of_nil
  obtain ⟨denoted, hdenoted, rfl⟩ := hstands.fits
  obtain ⟨depth, rfl, hdepth⟩ := hstands.descend hdepth
  rw [operandIn, hdenoted]
  refine Reads.bind (a := ()) ⟨Nat.le_succ n, ?_⟩ (Reads.pure tokens (n + 1) _)
  rw [faultsIn_one, Token.faults_of_denoted? hdenoted]
  rfl

/-- The items of an array are arguments in brackets. -/
theorem readsOperand_array {items : List Expr} (hitems : ∀ e ∈ items, ReadsExpression tokens e) :
    ReadsOperand tokens (.array items) := by
  intro n m depth h _ hdepth
  obtain ⟨hopen, h⟩ := h.uncons rfl
  have hkind : (ofList tokens).kind n = .bracketOpen := hopen.fits
  have hnone := Token.denoted?_of_kind hkind rfl
  obtain ⟨depth, rfl, hdepth⟩ := hopen.descend hdepth
  rw [operandIn, hnone, hkind]
  refine Reads.skip ?_ hnone
  refine (reads_arguments (Or.inl rfl) hitems h (by omega)).bind ?_
  exact Reads.pure tokens m _

/-- The entries of a map end in front of the brace, which is then read as the token that is
expected. -/
theorem readsOperand_map {entries : List (Expr × Expr)}
    (hentries : ∀ p ∈ entries, ReadsExpression tokens p.1 ∧ ReadsExpression tokens p.2) :
    ReadsOperand tokens (.map entries) := by
  intro n m depth h _ hdepth
  obtain ⟨hopen, h⟩ := h.uncons rfl
  obtain ⟨k, hspells, hclose, rfl⟩ := h.unsnoc rfl
  have hkind : (ofList tokens).kind n = .braceOpen := hopen.fits
  have hcloseKind : (ofList tokens).kind k = .braceClose := hclose.fits
  have hnone := Token.denoted?_of_kind hkind rfl
  obtain ⟨depth, rfl, hdepth⟩ := hopen.descend hdepth
  rw [operandIn, hnone, hkind]
  refine Reads.skip ?_ hnone
  refine (reads_entries hentries hspells hcloseKind (by omega)).bind ?_
  refine (Reads.expect hcloseKind rfl).bind ?_
  exact Reads.pure tokens (k + 1) _

/-- Inside of parentheses an expression of any shape may stand. -/
theorem readsOperand_group {inner : Expr} (hinner : ReadsExpression tokens inner) :
    ReadsOperand tokens (.group inner) := by
  intro n m depth h _ hdepth
  obtain ⟨hopen, h⟩ := h.uncons rfl
  obtain ⟨k, hspells, hclose, rfl⟩ := h.unsnoc rfl
  have hkind : (ofList tokens).kind n = .parenOpen := hopen.fits
  have hcloseKind : (ofList tokens).kind k = .parenClose := hclose.fits
  have hnone := Token.denoted?_of_kind hkind rfl
  obtain ⟨depth, rfl, hdepth⟩ := hopen.descend hdepth
  rw [operandIn, hnone, hkind]
  refine Reads.skip ?_ hnone
  refine (hinner hspells (expressionStops_of_kind hcloseKind (by decide)) (by omega)).bind ?_
  refine (Reads.expect hcloseKind rfl).bind ?_
  exact Reads.pure tokens (k + 1) _

/-- A sign stops where its operand does. -/
theorem readsOperand_unary {op : UnaryOp} {operand : Expr}
    (hoperand : ReadsOperand tokens operand) : ReadsOperand tokens (.unary op operand) := by
  intro n m depth h hstop hdepth
  obtain ⟨hop, h⟩ := h.uncons rfl
  have hkind : (ofList tokens).kind n = op.token := hop.fits
  have hnone := Token.denoted?_of_kind hkind (by cases op <;> rfl)
  obtain ⟨depth, rfl, hdepth⟩ := hop.descend hdepth
  have hreads : Reads tokens (n + 1) m ((ofList tokens).operandIn depth (n + 1)) (operand, m) :=
    hoperand h hstop (by omega)
  rw [operandIn, hnone, hkind]
  refine Reads.skip ?_ hnone
  cases op with
  | not => exact hreads.bind (Reads.pure tokens m _)
  | negate => exact hreads.bind (Reads.pure tokens m _)

/-- The parenthesis stands on the line of the name, or it would be a statement of its own. -/
theorem readsOperand_call {name : String} {args : List Expr}
    (hargs : ∀ e ∈ args, ReadsExpression tokens e) : ReadsOperand tokens (.call name args) := by
  intro n m depth h _ hdepth
  obtain ⟨hname, hbehind⟩ := h.uncons rfl
  obtain ⟨hopen, hspells⟩ := hbehind.uncons rfl
  obtain ⟨hkind, rfl⟩ := hname.fits
  have hparen : (ofList tokens).kind (n + 1) = .parenOpen := hopen.fits
  have hline : ((ofList tokens).token n).endsLine = false := hopen.before rfl
  have hnone := Token.denoted?_of_kind hkind rfl
  obtain ⟨depth, rfl, hdepth⟩ := hname.descend hdepth
  rw [operandIn, hnone, show (ofList tokens).kind n = .identifier from hkind]
  simp only [hparen, hline, Bool.false_eq_true, not_false_eq_true, and_self, if_true]
  refine Reads.skip (Reads.skip ?_ (Token.denoted?_of_kind hparen rfl)) hnone
  refine (reads_arguments (Or.inr rfl) hargs hspells (by omega)).bind ?_
  exact Reads.pure tokens m _

/-! ## Names with keys -/

/-- Reading keys behind the name that `e` starts with goes on behind `e` as it does with `e` in
hand. A parenthesis behind the name is one behind `e`. -/
def LeadsOn (tokens : List Token) (e : Expr) : Prop :=
  ∀ {n k}, Spells tokens e.yield n k →
    Stands tokens (.name ((ofList tokens).token n).value) n ∧
    (OperandStops (ofList tokens) k ∨ (ofList tokens).kind k = .bracketOpen →
      ¬((ofList tokens).kind (n + 1) = .parenOpen ∧ ¬((ofList tokens).token n).endsLine)) ∧
    ∀ {depth}, 4 * ((ofList tokens).size - (n + 1)) ≤ depth →
      ∃ depth', 4 * ((ofList tokens).size - k) ≤ depth' ∧
        ∀ {m} {a : Expr × Nat}, Reads tokens k m ((ofList tokens).keysIn depth' e k) a →
          Reads tokens (n + 1) m
            ((ofList tokens).keysIn depth (.ident ((ofList tokens).token n).value) (n + 1)) a

/-- A name alone is where reading keys starts, so there is nothing to lead over. -/
theorem leadsOn_ident (name : String) : LeadsOn tokens (.ident name) := by
  intro n k h
  obtain ⟨hname, hnil⟩ := h.uncons rfl
  obtain rfl := hnil.eq_of_nil
  obtain ⟨_, rfl⟩ := hname.fits
  refine ⟨hname, ?_, fun {depth} hdepth => ⟨depth, hdepth, id⟩⟩
  rintro hbehind ⟨hparen, hline⟩
  rcases hbehind with (hends | ⟨_, hnot⟩) | hbracket
  · exact hline hends
  · exact hnot hparen
  · rw [hbracket] at hparen
    cases hparen

/-- With one more key: the bracket stands on the line of what it belongs to, and the key is read
inside of it. -/
theorem leadsOn_element {base key : Expr} (hbase : LeadsOn tokens base)
    (hkey : ReadsExpression tokens key) : LeadsOn tokens (.element base key) := by
  intro n k h
  rw [Expr.yield, List.append_assoc, List.cons_append] at h
  obtain ⟨b, hbaseSpells, h⟩ := h.split
  obtain ⟨hopen, h⟩ := h.uncons rfl
  obtain ⟨c, hkeySpells, hclose, rfl⟩ := h.unsnoc rfl
  have hopenKind : (ofList tokens).kind b = .bracketOpen := hopen.fits
  have hcloseKind : (ofList tokens).kind c = .bracketClose := hclose.fits
  obtain ⟨hname, hparen, hgoes⟩ := hbase hbaseSpells
  refine ⟨hname, fun _ => hparen (Or.inr hopenKind), fun {depth} hdepth => ?_⟩
  obtain ⟨depth', hdepth', hgoes⟩ := hgoes hdepth
  obtain ⟨depth', rfl, hrest⟩ := hopen.descend hdepth'
  have hlt := hkeySpells.lt
  refine ⟨depth', by omega, fun {m a} hreads => hgoes ?_⟩
  rw [keysIn, if_pos ⟨hopenKind, Bool.eq_false_iff.1 (hopen.before rfl)⟩]
  refine Reads.skip ?_ (Token.denoted?_of_kind hopenKind rfl)
  refine (hkey hkeySpells (expressionStops_of_kind hcloseKind (by decide)) (by omega)).bind ?_
  exact (Reads.expect hcloseKind rfl).bind hreads

/-- A name with its keys is an operand. -/
theorem readsOperand_of_leadsOn {e : Expr} (h : LeadsOn tokens e) : ReadsOperand tokens e := by
  intro n m depth hspells hstop hdepth
  obtain ⟨hname, hparen, hgoes⟩ := h hspells
  have hnone := Token.denoted?_of_kind hname.fits.1 rfl
  obtain ⟨depth, rfl, hdepth⟩ := hname.descend hdepth
  obtain ⟨depth', _, hgoes⟩ := @hgoes depth (by omega)
  rw [operandIn, hnone, show (ofList tokens).kind n = .identifier from hname.fits.1]
  simp only [hparen (Or.inl hstop), if_false]
  refine Reads.skip (hgoes ?_) hnone
  have hpure := Reads.pure tokens m (e, m)
  cases depth' with
  | zero => rwa [keysIn]
  | succ depth' =>
    rw [keysIn, if_neg]
    · exact hpure
    · rintro ⟨hbracket, hline⟩
      rcases hstop with hends | ⟨hnot, _⟩
      · exact hline hends
      · exact hnot hbracket

/-! ## All expressions -/

/-- The operands of the chain are read, and names with keys lead on. -/
structure Complete (tokens : List Token) (e : Expr) : Prop where
  first : ReadsOperand tokens e.first
  links : ∀ link ∈ e.links, ReadsOperand tokens link.2
  leadsOn : e.isNamed = true → LeadsOn tokens e

/-- A well-formed tree is the tree of its own chain, so its operands are all it takes. -/
theorem Complete.readsExpression {e : Expr} (h : Complete tokens e) (he : e.WellFormed) :
    ReadsExpression tokens e :=
  readsExpression_of_operands he h.first h.links

/-- An expression that is no chain is the only operand of its own. -/
theorem complete_of_operand {e : Expr} (hbinary : e.isBinary = false) (hnamed : e.isNamed = false)
    (h : ReadsOperand tokens e) : Complete tokens e where
  first := by rwa [Expr.first_of_not_binary hbinary]
  links := by
    rw [Expr.links_of_not_binary hbinary]
    exact List.forall_mem_nil _
  leadsOn hnamed' := by
    rw [hnamed] at hnamed'
    cases hnamed'

/-- A name with keys is no chain either, and leads on to further keys. -/
theorem complete_of_leadsOn {e : Expr} (hbinary : e.isBinary = false) (h : LeadsOn tokens e) :
    Complete tokens e where
  first := by
    rw [Expr.first_of_not_binary hbinary]
    exact readsOperand_of_leadsOn h
  links := by
    rw [Expr.links_of_not_binary hbinary]
    exact List.forall_mem_nil _
  leadsOn _ := h

/-- The induction on the tree. A chain has the operands of both its sides; every other tree is an
operand of its own. -/
theorem complete {e : Expr} (he : e.WellFormed) : Complete tokens e := by
  induction e using Expr.induct with
  | literal value => exact complete_of_operand rfl rfl (readsOperand_literal value)
  | ident name => exact complete_of_leadsOn rfl (leadsOn_ident name)
  | element base key ihb ihk =>
    obtain ⟨hnamed, hbase, hkey⟩ := Expr.all_element_iff.1 he
    exact complete_of_leadsOn rfl
      (leadsOn_element ((ihb hbase).leadsOn hnamed) ((ihk hkey).readsExpression hkey))
  | array items ih =>
    obtain ⟨_, hitems⟩ := Expr.all_array_iff.1 he
    refine complete_of_operand rfl rfl (readsOperand_array fun e hmem => ?_)
    exact (ih e hmem (hitems e hmem)).readsExpression (hitems e hmem)
  | map entries ih =>
    obtain ⟨_, hentries⟩ := Expr.all_map_iff.1 he
    refine complete_of_operand rfl rfl (readsOperand_map fun p hmem => ?_)
    obtain ⟨hkey, hvalue⟩ := hentries p hmem
    exact ⟨((ih p hmem).1 hkey).readsExpression hkey, ((ih p hmem).2 hvalue).readsExpression hvalue⟩
  | call name args ih =>
    obtain ⟨_, hargs⟩ := Expr.all_call_iff.1 he
    refine complete_of_operand rfl rfl (readsOperand_call fun e hmem => ?_)
    exact (ih e hmem (hargs e hmem)).readsExpression (hargs e hmem)
  | group inner ih =>
    obtain ⟨_, hinner⟩ := Expr.all_group_iff.1 he
    exact complete_of_operand rfl rfl (readsOperand_group ((ih hinner).readsExpression hinner))
  | unary op operand ih =>
    obtain ⟨hsingle, hoperand⟩ := Expr.all_unary_iff.1 he
    have hfirst := (ih hoperand).first
    rw [Expr.first_of_not_binary hsingle] at hfirst
    exact complete_of_operand rfl rfl (readsOperand_unary hfirst)
  | binary left op right ihl ihr =>
    obtain ⟨_, hleft, hright⟩ := Expr.wellFormed_binary_iff.1 he
    refine ⟨(ihl hleft).first, ?_, fun hnamed => absurd hnamed Bool.false_ne_true⟩
    rw [Expr.links]
    refine List.forall_mem_append.2
      ⟨(ihl hleft).links, List.forall_mem_cons.2 ⟨(ihr hright).first, ?_⟩⟩
    exact (ihr hright).links

/-- **What is spelled is read.** Where tokens spell a well-formed expression that does not go on
behind them, the expression is read, with what is wrong with the literals among the tokens. -/
theorem reads_expression {e : Expr} (he : e.WellFormed) (h : Spells tokens e.yield n m)
    (hstop : ExpressionStops (ofList tokens) m) :
    (ofList tokens).expression n = ⟨faultsIn tokens n m, .ok (e, m)⟩ := by
  have hdepth : 4 * ((ofList tokens).size - n) + 1 ≤ (ofList tokens).depth n := by
    rw [TokenStream.depth]
    omega
  exact ((complete he).readsExpression he h hstop hdepth).2

end LineScript
