import LineScript.Proofs.Grammar.Completeness
import LineScript.Proofs.Grammar.Shapes

/-!
# Reading undoes printing

The well-formed trees are exactly the ones that reading gives. None is out of reach: the tokens that
a well-formed tree is written with are read as this tree, whichever tokens are taken for its
literals. And there are no others.

`Expr.print` is one way to write an expression, on one line and without a comma behind the last
entry of a map; `Expr.IsYield` are all of them.
-/

set_option autoImplicit false

namespace LineScript

open TokenStream

/-! ## Tokens of terminals -/

/-- A token for a terminal. -/
def Terminal.token : Terminal → Token
  | .sign kind => ⟨kind, kind.tag, false, default⟩
  | .literal value => value.token
  | .name text => ⟨.identifier, text, false, default⟩
  | .operator op => ⟨op.token, op.symbol, false, default⟩
  | .attached kind => ⟨kind, kind.tag, false, default⟩
  | .trailingComma => ⟨.comma, TokenKind.comma.tag, false, default⟩

/-- The token is one of the terminal, with nothing wrong, on a line with what is behind it. -/
structure Terminal.Writes (terminal : Terminal) (t : Token) : Prop where
  fits : terminal.Fits t
  endsLine : t.endsLine = false
  faults : t.faults = []

/-- The terminals of a well-formed tree: signs are no literals and no end of file, literals can be
denoted. -/
def Terminal.Printable : Terminal → Prop
  | .sign kind => kind ≠ .endOfFile ∧ kind.isLiteral = false
  | .attached kind => kind ≠ .endOfFile ∧ kind.isLiteral = false
  | .literal value => value.Denotable
  | _ => True

theorem Terminal.Printable.writes_token {terminal : Terminal} (h : terminal.Printable) :
    terminal.Writes terminal.token := by
  cases terminal with
  | sign kind => exact ⟨rfl, rfl, Token.faults_of_none (Token.denoted?_of_kind rfl h.2)⟩
  | attached kind => exact ⟨rfl, rfl, Token.faults_of_none (Token.denoted?_of_kind rfl h.2)⟩
  | literal value =>
    have hdenoted := Value.Denotable.denoted?_token h
    exact ⟨⟨_, hdenoted, rfl⟩, rfl, Token.faults_of_denoted? hdenoted⟩
  | name text => exact ⟨⟨rfl, rfl⟩, rfl, rfl⟩
  | operator op =>
    exact ⟨rfl, rfl, Token.faults_of_none (Token.denoted?_of_kind rfl op.token_isLiteral)⟩
  | trailingComma => exact ⟨rfl, rfl, rfl⟩

theorem Terminal.Printable.kind_ne {terminal : Terminal} {t : Token} (h : terminal.Printable)
    (hfits : terminal.Fits t) : t.kind ≠ .endOfFile := by
  cases terminal with
  | sign kind =>
    obtain rfl : t.kind = kind := hfits
    exact h.1
  | attached kind =>
    obtain rfl : t.kind = kind := hfits
    exact h.1
  | literal value =>
    obtain ⟨denoted, hdenoted, _⟩ := hfits
    exact Token.kind_ne_of_denoted? hdenoted
  | name text =>
    rw [hfits.1]
    decide
  | operator op =>
    rw [show t.kind = op.token from hfits]
    exact op.token_ne_endOfFile
  | trailingComma =>
    rw [show t.kind = .comma from hfits]
    decide

namespace Expr

theorem printable_yieldItems {items : List Expr}
    (h : ∀ e ∈ items, ∀ terminal ∈ e.yield, terminal.Printable) :
    ∀ terminal ∈ yieldItems items, terminal.Printable := by
  induction items with
  | nil => exact List.forall_mem_nil _
  | cons e rest ih =>
    obtain ⟨he, hrest⟩ := List.forall_mem_cons.1 h
    cases rest with
    | nil => exact he
    | cons second others =>
      rw [yieldItems]
      exact List.forall_mem_append.2 ⟨he, List.forall_mem_cons.2 ⟨⟨by decide, rfl⟩, ih hrest⟩⟩

theorem printable_yieldEntries {entries : List (Expr × Expr)} (h : ∀ p ∈ entries,
    (∀ terminal ∈ p.1.yield, terminal.Printable) ∧ ∀ terminal ∈ p.2.yield, terminal.Printable) :
    ∀ terminal ∈ yieldEntries entries, terminal.Printable := by
  induction entries with
  | nil => exact List.forall_mem_nil _
  | cons entry rest ih =>
    obtain ⟨key, value⟩ := entry
    obtain ⟨⟨hkey, hvalue⟩, hrest⟩ := List.forall_mem_cons.1 h
    have hcolon : (Terminal.sign .colon).Printable := ⟨by decide, rfl⟩
    cases rest with
    | nil =>
      simp only [yieldEntries, List.forall_mem_append, List.forall_mem_cons]
      exact ⟨⟨hkey, hcolon, hvalue⟩, trivial, List.forall_mem_nil _⟩
    | cons next others =>
      simp only [yieldEntries, List.forall_mem_append, List.forall_mem_cons]
      exact ⟨⟨hkey, hcolon, hvalue⟩, ⟨by decide, rfl⟩, ih hrest⟩

theorem printable_yield {e : Expr} (he : e.WellFormed) :
    ∀ terminal ∈ e.yield, terminal.Printable := by
  induction e using Expr.induct with
  | literal value => exact List.forall_mem_singleton.2 he.self
  | ident name => exact List.forall_mem_singleton.2 trivial
  | element base key ihb ihk =>
    obtain ⟨_, hbase, hkey⟩ := all_element_iff.1 he
    simp only [yield, List.forall_mem_append, List.forall_mem_cons]
    exact ⟨⟨ihb hbase, ⟨by decide, rfl⟩, ihk hkey⟩, ⟨by decide, rfl⟩, List.forall_mem_nil _⟩
  | array items ih =>
    obtain ⟨_, hitems⟩ := all_array_iff.1 he
    simp only [yield, List.forall_mem_append, List.forall_mem_cons]
    have hyield := printable_yieldItems fun e hmem => ih e hmem (hitems e hmem)
    exact ⟨⟨⟨by decide, rfl⟩, hyield⟩, ⟨by decide, rfl⟩, List.forall_mem_nil _⟩
  | map entries ih =>
    obtain ⟨_, hentries⟩ := all_map_iff.1 he
    simp only [yield, List.forall_mem_append, List.forall_mem_cons]
    refine ⟨⟨⟨by decide, rfl⟩, printable_yieldEntries fun p hmem => ?_⟩, ⟨by decide, rfl⟩,
      List.forall_mem_nil _⟩
    exact ⟨(ih p hmem).1 (hentries p hmem).1, (ih p hmem).2 (hentries p hmem).2⟩
  | call name args ih =>
    obtain ⟨_, hargs⟩ := all_call_iff.1 he
    simp only [yield, List.forall_mem_append, List.forall_mem_cons]
    have hyield := printable_yieldItems fun e hmem => ih e hmem (hargs e hmem)
    exact ⟨⟨trivial, ⟨by decide, rfl⟩, hyield⟩, ⟨by decide, rfl⟩, List.forall_mem_nil _⟩
  | group inner ih =>
    obtain ⟨_, hinner⟩ := all_group_iff.1 he
    simp only [yield, List.forall_mem_append, List.forall_mem_cons]
    exact ⟨⟨⟨by decide, rfl⟩, ih hinner⟩, ⟨by decide, rfl⟩, List.forall_mem_nil _⟩
  | unary op operand ih =>
    obtain ⟨_, hoperand⟩ := all_unary_iff.1 he
    rw [yield]
    exact List.forall_mem_cons.2 ⟨by cases op <;> exact ⟨by decide, rfl⟩, ih hoperand⟩
  | binary left op right ihl ihr =>
    obtain ⟨_, hleft, hright⟩ := wellFormed_binary_iff.1 he
    simp only [yield, List.forall_mem_append, List.forall_mem_cons]
    exact ⟨ihl hleft, trivial, ihr hright⟩

/-- The expression as tokens. -/
def print (e : Expr) : List Token := (e.yield.filter Terminal.isWritten).map Terminal.token

/-- The tokens are a way to write the expression on one line. -/
def IsYield (e : Expr) (tokens : List Token) : Prop :=
  List.Forall₂ Terminal.Writes (e.yield.filter Terminal.isWritten) tokens

theorem isYield_print {e : Expr} (he : e.WellFormed) : e.IsYield e.print := by
  rw [IsYield, print, List.forall₂_map_right_iff, List.forall₂_same]
  exact fun terminal hmem =>
    (printable_yield he terminal (List.mem_of_mem_filter hmem)).writes_token

end Expr

/-! ## Tokens in a list -/

/-- Tokens that stand for terminals, behind others on their line, spell them. -/
theorem spells_of_writes {terminals : List Terminal} {front body : List Token} (back : List Token)
    (hprintable : ∀ terminal ∈ terminals, terminal.Printable)
    (hbody : List.Forall₂ Terminal.Writes (terminals.filter Terminal.isWritten) body)
    (hfront : ∀ t ∈ front, t.endsLine = false) :
    Spells (front ++ (body ++ back)) terminals front.length (front.length + body.length) := by
  induction terminals generalizing front body with
  | nil =>
    obtain rfl := List.forall₂_nil_left_iff.1 hbody
    exact .nil
  | cons first rest ih =>
    obtain ⟨hfirst, hrest⟩ := List.forall_mem_cons.1 hprintable
    by_cases hwritten : first.isWritten = true
    · rw [List.filter_cons_of_pos hwritten] at hbody
      obtain ⟨t, others, hwrites, hothers, rfl⟩ := List.forall₂_cons_left_iff.1 hbody
      have hsplit : front ++ (t :: others ++ back) = (front ++ [t]) ++ (others ++ back) := by simp
      have hline : ∀ u ∈ front ++ [t], u.endsLine = false :=
        List.forall_mem_append.2 ⟨hfront, List.forall_mem_singleton.2 hwrites.endsLine⟩
      have hspells := ih hrest hothers hline
      rw [← hsplit, List.length_append, List.length_singleton] at hspells
      refine .cons (by simp) (hfirst.kind_ne hwrites.fits) hwrites.fits ?_
        (fun _ => hwrites.endsLine) ?_
      · rintro - k u hk hu
        rw [List.getElem?_append_left (by omega)] at hu
        exact hfront u (List.mem_of_getElem? hu)
      · rwa [List.length_cons, Nat.add_comm others.length, ← Nat.add_assoc]
    · rw [List.filter_cons_of_neg hwritten] at hbody
      cases first with
      | trailingComma => exact .missing (ih hrest hbody hfront)
      | _ => exact absurd rfl hwritten

theorem faults_of_writes {terminals : List Terminal} {tokens : List Token}
    (h : List.Forall₂ Terminal.Writes terminals tokens) : ∀ t ∈ tokens, t.faults = [] := by
  induction h with
  | nil => exact List.forall_mem_nil _
  | cons hwrites _ ih => exact List.forall_mem_cons.2 ⟨hwrites.faults, ih⟩

/-- **Reading undoes printing.** Every well-formed expression has tokens to write it, and from any
such tokens, with an end of file behind them, it is read to its last token without a faulty literal.
And every expression that is read from any tokens at any offset is well-formed. -/
theorem Expr.reading_undoes_printing :
    (∀ e : Expr, e.WellFormed →
      e.IsYield e.print ∧
      ∀ tokens, e.IsYield tokens → ∀ closing : Token, closing.kind = .endOfFile →
        (ofList (tokens ++ [closing])).expression 0 = ⟨[], .ok (e, tokens.length)⟩) ∧
      ∀ tokens offset e next, ((ofList tokens).expression offset).outcome = .ok (e, next) →
        e.WellFormed := by
  refine ⟨fun e he => ⟨isYield_print he, fun tokens htokens closing hclosing => ?_⟩,
    fun tokens offset e next h => ?_⟩
  · have hspells : Spells ([] ++ (tokens ++ [closing])) e.yield 0 (0 + tokens.length) :=
      spells_of_writes [closing] (printable_yield he) htokens (List.forall_mem_nil _)
    rw [List.nil_append, Nat.zero_add] at hspells
    rw [reads_expression he hspells (expressionStops_of_kind (kind_length hclosing) (by decide)),
      faultsIn_length, List.flatMap_eq_nil_iff.2 (faults_of_writes htokens)]
  · exact (shapes _ _).expression h

/-- `x = m["k"][-1] = -f({"a": [1, 2]}, not b) * (3 - 4) - 5`, where only the parentheses that are
in the tree are written -/
def Expr.chainedKeys : Expr :=
  .binary (.ident "x") .assign (.binary (.element (.element (.ident "m") (.literal (.string "k")))
    (.unary .negate (.literal (.number ⟨1, 0⟩)))) .assign
    (.binary (.binary (.unary .negate (.call "f" [.map [(.literal (.string "a"),
      .array [.literal (.number ⟨1, 0⟩), .literal (.number ⟨2, 0⟩)])], .unary .not (.ident "b")]))
      (.arith .multiply) (.group (.binary (.literal (.number ⟨3, 0⟩)) (.arith .subtract)
        (.literal (.number ⟨4, 0⟩))))) (.arith .subtract) (.literal (.number ⟨5, 0⟩))))

/-- The same with a line end and a trailing comma in the braces, and with other texts for two of its
literals. -/
def Expr.chainedKeysTokens : List Token :=
  [⟨.identifier, "x", false, default⟩, ⟨.assign, "=", false, default⟩,
    ⟨.identifier, "m", false, default⟩, ⟨.bracketOpen, "[", false, default⟩,
    ⟨.stringLiteral, "\\k", false, default⟩, ⟨.bracketClose, "]", false, default⟩,
    ⟨.bracketOpen, "[", false, default⟩, ⟨.minus, "-", false, default⟩,
    ⟨.numberLiteral, "1.0", false, default⟩, ⟨.bracketClose, "]", false, default⟩,
    ⟨.assign, "=", false, default⟩, ⟨.minus, "-", false, default⟩,
    ⟨.identifier, "f", false, default⟩, ⟨.parenOpen, "(", false, default⟩,
    ⟨.braceOpen, "\x7b", true, default⟩, ⟨.stringLiteral, "a", false, default⟩,
    ⟨.colon, ":", false, default⟩, ⟨.bracketOpen, "[", false, default⟩,
    ⟨.numberLiteral, "1", false, default⟩, ⟨.comma, ",", false, default⟩,
    ⟨.numberLiteral, "2", false, default⟩, ⟨.bracketClose, "]", false, default⟩,
    ⟨.comma, ",", true, default⟩, ⟨.braceClose, "\x7d", false, default⟩,
    ⟨.comma, ",", false, default⟩, ⟨.not, "not", false, default⟩,
    ⟨.identifier, "b", false, default⟩, ⟨.parenClose, ")", false, default⟩,
    ⟨.times, "*", false, default⟩, ⟨.parenOpen, "(", false, default⟩,
    ⟨.numberLiteral, "3", false, default⟩, ⟨.minus, "-", false, default⟩,
    ⟨.numberLiteral, "4", false, default⟩, ⟨.parenClose, ")", false, default⟩,
    ⟨.minus, "-", false, default⟩, ⟨.numberLiteral, "5", true, default⟩]

theorem Expr.reading_undoes_printing_chainedKeys :
    ((ofList chainedKeysTokens).expression 0).outcome = .ok (chainedKeys, 36) ∧
      chainedKeys.WellFormed ∧ chainedKeys.IsYield chainedKeys.print ∧
      (ofList (chainedKeys.print ++ [Token.endOfFile 0])).expression 0 =
        ⟨[], .ok (chainedKeys, 35)⟩ := by
  have hread : ((ofList chainedKeysTokens).expression 0).outcome = .ok (chainedKeys, 36) := by
    with_unfolding_all rfl
  have hwf := reading_undoes_printing.2 _ _ _ _ hread
  obtain ⟨hyield, hprint⟩ := reading_undoes_printing.1 _ hwf
  exact ⟨hread, hwf, hyield, hprint _ hyield _ rfl⟩

end LineScript
