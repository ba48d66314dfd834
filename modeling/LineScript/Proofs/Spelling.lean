import LineScript.Grammar.Program
import LineScript.Proofs.Expr.Yield

/-!
# Readings keep the tokens

What is read is spelled by the tokens it was read from: every token between the offset a reading
starts at and the offset it returns stands for one terminal of the yield, in this order, and there
are no others. `Spells` is that relation. It has the rules of layout in it: an operator stands on
the line of both its operands, and the parenthesis of a call and the bracket of a key on the line of
what is before them.

The functions of the grammar call each other with a depth that goes down, so the proof is one
induction on the depth for all seven (`Sound`). A depth that is too small makes a reading shorter or
makes it fail; what was read is spelled by its tokens all the same. Only for whole programs the
bound has to be enough, and it is since every statement takes a token.
-/

set_option autoImplicit false

namespace LineScript

/-! ## Terminals and tokens -/

/-- The token can stand for the terminal. -/
def Terminal.Fits (t : Token) : Terminal → Prop
  | .sign kind => t.kind = kind
  | .literal value => ∃ denoted, t.denoted? = some denoted ∧ denoted.value = value
  | .name text => t.kind = .identifier ∧ t.value = text
  | .operator op => t.kind = op.token
  | .attached kind => t.kind = kind
  | .trailingComma => t.kind = .comma

/-- The token in front has to stand on the same line. -/
def Terminal.joinsBefore : Terminal → Bool
  | .operator _ => true
  | .attached _ => true
  | _ => false

/-- The token behind has to stand on the same line. -/
def Terminal.joinsBehind : Terminal → Bool
  | .operator _ => true
  | _ => false

/-- The tokens from one offset up to another stand for the terminals, one for each; a trailing comma
may be missing. -/
inductive Spells (tokens : List Token) : List Terminal → Nat → Nat → Prop
  | nil {n : Nat} : Spells tokens [] n n
  | cons {n m : Nat} {t : Token} {first : Terminal} {rest : List Terminal}
      (ht : tokens[n]? = some t) (hend : t.kind ≠ .endOfFile) (hfits : first.Fits t)
      (hbefore : first.joinsBefore = true →
        ∀ k u, n = k + 1 → tokens[k]? = some u → u.endsLine = false)
      (hbehind : first.joinsBehind = true → t.endsLine = false)
      (hrest : Spells tokens rest (n + 1) m) : Spells tokens (first :: rest) n m
  | missing {n m : Nat} {rest : List Terminal} (hrest : Spells tokens rest n m) :
      Spells tokens (.trailingComma :: rest) n m

namespace Spells

variable {tokens : List Token} {first rest : List Terminal} {n m k : Nat}

theorem append (h : Spells tokens first n m) (hrest : Spells tokens rest m k) :
    Spells tokens (first ++ rest) n k := by
  induction h with
  | nil => exact hrest
  | cons ht hend hfits hbefore hbehind _ ih => exact .cons ht hend hfits hbefore hbehind (ih hrest)
  | missing _ ih => exact .missing (ih hrest)

theorem le (h : Spells tokens first n m) : n ≤ m := by
  induction h with
  | nil => exact Nat.le_refl _
  | cons _ _ _ _ _ _ ih => omega
  | missing _ ih => exact ih

/-- Every offset on the way holds a token, and none is an end of file. -/
theorem token (h : Spells tokens first n m) (hle : n ≤ k) (hlt : k < m) :
    ∃ t, tokens[k]? = some t ∧ t.kind ≠ .endOfFile := by
  induction h with
  | nil => omega
  | cons ht hend _ _ _ _ ih =>
    rcases Nat.eq_or_lt_of_le hle with rfl | hlt'
    · exact ⟨_, ht, hend⟩
    · exact ih hlt' hlt
  | missing _ ih => exact ih hle hlt

/-- The offset behind them is at most the number of tokens. -/
theorem le_length (h : Spells tokens first n m) (hlt : n < m) : m ≤ tokens.length := by
  obtain ⟨last, rfl⟩ := Nat.exists_eq_succ_of_ne_zero (Nat.ne_zero_of_lt hlt)
  obtain ⟨t, ht, _⟩ := h.token (Nat.le_of_lt_succ hlt) (Nat.lt_succ_self last)
  exact (List.getElem?_eq_some_iff.1 ht).1

theorem eq_of_nil (h : Spells tokens [] n m) : n = m := by
  cases h
  rfl

/-- An expression takes at least one token. -/
theorem lt {e : Expr} (h : Spells tokens e.yield n m) : n < m := by
  obtain ⟨first, rest, hyield, hfirst⟩ := e.yield_cons
  rw [hyield] at h
  cases h with
  | cons _ _ _ _ _ hrest => exact hrest.le
  | missing => exact absurd rfl hfirst

end Spells

/-- A literal is no end of file. -/
theorem Token.kind_ne_of_denoted? {t : Token} {denoted : Denoted} (h : t.denoted? = some denoted) :
    t.kind ≠ .endOfFile := by
  intro hkind
  rw [denoted?, hkind] at h
  cases h

/-! ## Streams -/

/-- Errors in literals do not stop the reading, so the outcomes alone can be followed. -/
theorem Reading.bind_outcome {α β : Type} {r : Reading α} {f : α → Reading β} {b : β}
    (h : (r >>= f).outcome = .ok b) : ∃ a, r.outcome = .ok a ∧ (f a).outcome = .ok b := by
  have hbind : r >>= f = ⟨(r >>= f).errors, .ok b⟩ := by rw [← h]
  obtain ⟨a, hr, hf, _⟩ := Reading.bind_eq_ok hbind
  exact ⟨a, hr, hf⟩

namespace TokenStream

theorem expect_outcome {ts : TokenStream} {kind : TokenKind} {offset next : Nat}
    (h : (ts.expect kind offset).outcome = .ok next) :
    ts.kind offset = kind ∧ offset + 1 = next := by
  unfold expect at h
  split at h
  · rename_i hkind
    exact ⟨hkind, Except.ok.inj h⟩
  · cases h

variable {tokens : List Token} {n m : Nat}

/-- The stream of a list has its tokens, and behind them nothing but one end of file. -/
theorem token_ofList (tokens : List Token) :
    ∃ closing : Token, closing.kind = .endOfFile ∧
      ∀ n, (ofList tokens).token n = tokens[n]?.getD closing := by
  rcases hlast : tokens.getLast? with _ | last
  · obtain rfl := List.getLast?_eq_none_iff.1 hlast
    exact ⟨Token.endOfFile 0, rfl, fun n => by simp [token, ofList]⟩
  · by_cases hkind : last.kind = .endOfFile
    · -- The last token is the one that is repeated.
      refine ⟨last, hkind, fun n => ?_⟩
      obtain ⟨front, rfl⟩ := List.getLast?_eq_some_iff.1 hlast
      have hbody : (ofList (front ++ [last])).token n = front[n]?.getD last := by
        simp [token, ofList, hkind]
      rw [hbody, List.getElem?_append]
      split
      · rfl
      · rename_i hn
        rw [List.getElem?_eq_none (Nat.le_of_not_lt hn), List.getElem?_singleton]
        split <;> rfl
    · refine ⟨Token.endOfFile last.span.stop, rfl, fun n => ?_⟩
      simp [token, ofList, hlast, hkind]

theorem kind_of_size_le (h : (ofList tokens).size ≤ n) : (ofList tokens).kind n = .endOfFile := by
  have hfinal : (ofList tokens).final.kind = .endOfFile := by
    unfold ofList
    split
    · split
      · assumption
      · rfl
    · rfl
  rw [kind, token, Array.getD_eq_getD_getElem?, Array.getElem?_eq_none h]
  exact hfinal

theorem getElem?_of_kind (h : (ofList tokens).kind n ≠ .endOfFile) :
    tokens[n]? = some ((ofList tokens).token n) := by
  obtain ⟨closing, hclosing, htoken⟩ := token_ofList tokens
  rw [htoken]
  rcases ht : tokens[n]? with _ | t
  · rw [kind, htoken, ht] at h
    exact absurd hclosing h
  · rfl

theorem token_of_getElem? {t : Token} (h : tokens[n]? = some t) : (ofList tokens).token n = t := by
  obtain ⟨closing, _, htoken⟩ := token_ofList tokens
  rw [htoken, h]
  rfl

theorem lineEndsBefore_ofList (h : (ofList tokens).lineEndsBefore n = false) :
    ∀ k u, n = k + 1 → tokens[k]? = some u → u.endsLine = false := by
  rintro k u rfl hu
  rw [lineEndsBefore, token_of_getElem? hu] at h
  exact h

/-- One token that is read. -/
theorem spells_one {terminal : Terminal} (hend : (ofList tokens).kind n ≠ .endOfFile)
    (hfits : terminal.Fits ((ofList tokens).token n))
    (hbefore : terminal.joinsBefore = true → (ofList tokens).lineEndsBefore n = false)
    (hbehind : terminal.joinsBehind = true → ((ofList tokens).token n).endsLine = false) :
    Spells tokens [terminal] n (n + 1) :=
  .cons (getElem?_of_kind hend) hend hfits (fun h => lineEndsBefore_ofList (hbefore h)) hbehind .nil

/-- One token that may stand on a line of its own. -/
theorem spells_plain {terminal : Terminal} (hend : (ofList tokens).kind n ≠ .endOfFile)
    (hfits : terminal.Fits ((ofList tokens).token n)) (hbefore : terminal.joinsBefore = false)
    (hbehind : terminal.joinsBehind = false) : Spells tokens [terminal] n (n + 1) := by
  refine spells_one hend hfits (fun hjoin => ?_) fun hjoin => ?_
  · rw [hbefore] at hjoin
    cases hjoin
  · rw [hbehind] at hjoin
    cases hjoin

theorem spells_sign {kind : TokenKind} (h : (ofList tokens).kind n = kind)
    (hkind : kind ≠ .endOfFile) : Spells tokens [.sign kind] n (n + 1) :=
  spells_plain (h ▸ hkind) h rfl rfl

/-- Brackets behind a name or an element have to be on its line. -/
theorem spells_attached {kind : TokenKind} (h : (ofList tokens).kind n = kind)
    (hkind : kind ≠ .endOfFile) (hline : (ofList tokens).lineEndsBefore n = false) :
    Spells tokens [.attached kind] n (n + 1) :=
  spells_one (h ▸ hkind) h (fun _ => hline) fun hjoin => absurd hjoin Bool.false_ne_true

/-- Behind tokens that are none themselves, an end of file is the first. -/
theorem findIdx_of_spells {terminals : List Terminal} (h : Spells tokens terminals 0 n)
    (hkind : (ofList tokens).kind n = .endOfFile) :
    tokens.findIdx (fun t => t.kind = .endOfFile) = n := by
  have hbefore : ∀ k t, k < n → tokens[k]? = some t → decide (t.kind = .endOfFile) = false := by
    intro k t hk ht
    obtain ⟨u, hu, hend⟩ := h.token (Nat.zero_le k) hk
    obtain rfl := Option.some.inj (ht.symm.trans hu)
    exact decide_eq_false hend
  by_cases hlt : n < tokens.length
  · have htoken := token_of_getElem? (List.getElem?_eq_getElem hlt)
    rw [List.findIdx_eq hlt]
    refine ⟨decide_eq_true (htoken ▸ hkind), fun k hk => ?_⟩
    exact hbefore k _ hk (List.getElem?_eq_getElem (Nat.lt_trans hk hlt))
  · -- The list ends here.
    have hlength : n = tokens.length := by
      rcases Nat.eq_zero_or_pos n with rfl | hpos
      · omega
      · have hle := h.le_length hpos
        omega
    rw [hlength, List.findIdx_eq_length]
    intro t ht
    obtain ⟨k, hk⟩ := List.mem_iff_getElem?.1 ht
    exact hbefore k t (hlength ▸ (List.getElem?_eq_some_iff.1 hk).1) hk

/-! ## Readings -/

/-- Up to a depth, everything that is read is spelled by its tokens. -/
structure Sound (tokens : List Token) (depth : Nat) : Prop where
  expression :
      ∀ {offset e next}, ((ofList tokens).expressionIn depth offset).outcome = .ok (e, next) →
        Spells tokens e.yield offset next
  links :
      ∀ {offset links next}, ((ofList tokens).linksIn depth offset).outcome = .ok (links, next) →
        Spells tokens (Expr.yieldLinks links) offset next
  operand : ∀ {offset e next}, ((ofList tokens).operandIn depth offset).outcome = .ok (e, next) →
    Spells tokens e.yield offset next
  arguments : ∀ {close offset items next}, close ≠ .endOfFile →
    ((ofList tokens).argumentsIn depth close offset).outcome = .ok (items, next) →
    Spells tokens (Expr.yieldItems items ++ [.sign close]) offset next
  expressions :
      ∀ {offset items next},
        ((ofList tokens).expressionsIn depth offset).outcome = .ok (items, next) →
        items ≠ [] ∧ Spells tokens (Expr.yieldItems items) offset next
  entries :
      ∀ {offset entries next},
        ((ofList tokens).entriesIn depth offset).outcome = .ok (entries, next) →
        Spells tokens (Expr.yieldEntries entries) offset next
  keys :
      ∀ {base offset e next}, ((ofList tokens).keysIn depth base offset).outcome = .ok (e, next) →
        ∃ keys, e.yield = base.yield ++ keys ∧ Spells tokens keys offset next

variable {depth offset next : Nat}

theorem sound_zero (tokens : List Token) : Sound tokens 0 where
  expression h := by
    rw [expressionIn] at h
    cases h
  links h := by
    rw [linksIn] at h
    obtain ⟨rfl, rfl⟩ := Prod.mk.inj (Except.ok.inj h)
    exact .nil
  operand h := by
    rw [operandIn] at h
    cases h
  arguments _ h := by
    rw [argumentsIn] at h
    cases h
  expressions h := by
    rw [expressionsIn] at h
    cases h
  entries h := by
    rw [entriesIn] at h
    cases h
  keys h := by
    rw [keysIn] at h
    obtain ⟨rfl, rfl⟩ := Prod.mk.inj (Except.ok.inj h)
    exact ⟨[], (List.append_nil _).symm, .nil⟩

theorem sound_expression {e : Expr} (ih : Sound tokens depth)
    (h : ((ofList tokens).expressionIn (depth + 1) offset).outcome = .ok (e, next)) :
    Spells tokens e.yield offset next := by
  rw [expressionIn] at h
  obtain ⟨⟨first, mid⟩, hfirst, h⟩ := Reading.bind_outcome h
  obtain ⟨⟨links, stop⟩, hlinks, h⟩ := Reading.bind_outcome h
  obtain ⟨rfl, rfl⟩ := Prod.mk.inj (Except.ok.inj h)
  rw [Expr.yield_ofChain]
  exact (ih.operand hfirst).append (ih.links hlinks)

theorem sound_links {links : Expr.Links} (ih : Sound tokens depth)
    (h : ((ofList tokens).linksIn (depth + 1) offset).outcome = .ok (links, next)) :
    Spells tokens (Expr.yieldLinks links) offset next := by
  have hnone : ∀ {links next},
      (pure ([], offset) : Reading (Expr.Links × Nat)).outcome = .ok (links, next) →
      Spells tokens (Expr.yieldLinks links) offset next := by
    intro links next h
    obtain ⟨rfl, rfl⟩ := Prod.mk.inj (Except.ok.inj h)
    exact .nil
  rw [linksIn] at h
  split at h
  · exact hnone h
  · rename_i hbefore
    split at h
    · exact hnone h
    · rename_i op hop
      split at h
      · cases h
      · rename_i hbehind
        obtain ⟨⟨right, mid⟩, hright, h⟩ := Reading.bind_outcome h
        obtain ⟨⟨rest, stop⟩, hrest, h⟩ := Reading.bind_outcome h
        obtain ⟨rfl, rfl⟩ := Prod.mk.inj (Except.ok.inj h)
        have hkind := BinaryOp.token_of_ofToken? hop
        have hoperator : Spells tokens [.operator op] offset (offset + 1) := by
          refine spells_one ?_ hkind (fun _ => Bool.eq_false_iff.2 hbefore)
            (fun _ => Bool.eq_false_iff.2 hbehind)
          rw [hkind]
          exact op.token_ne_endOfFile
        exact hoperator.append ((ih.operand hright).append (ih.links hrest))

theorem sound_arguments {close : TokenKind} {items : List Expr} (ih : Sound tokens depth)
    (hclose : close ≠ .endOfFile)
    (h : ((ofList tokens).argumentsIn (depth + 1) close offset).outcome = .ok (items, next)) :
    Spells tokens (Expr.yieldItems items ++ [.sign close]) offset next := by
  rw [argumentsIn] at h
  split at h
  · rename_i hkind
    obtain ⟨rfl, rfl⟩ := Prod.mk.inj (Except.ok.inj h)
    exact spells_sign hkind hclose
  · obtain ⟨⟨items, mid⟩, hitems, h⟩ := Reading.bind_outcome h
    obtain ⟨stop, hstop, h⟩ := Reading.bind_outcome h
    obtain ⟨rfl, rfl⟩ := Prod.mk.inj (Except.ok.inj h)
    obtain ⟨hkind, rfl⟩ := expect_outcome hstop
    exact (ih.expressions hitems).2.append (spells_sign hkind hclose)

theorem sound_expressions {items : List Expr} (ih : Sound tokens depth)
    (h : ((ofList tokens).expressionsIn (depth + 1) offset).outcome = .ok (items, next)) :
    items ≠ [] ∧ Spells tokens (Expr.yieldItems items) offset next := by
  rw [expressionsIn] at h
  obtain ⟨⟨first, mid⟩, hfirst, hmore⟩ := Reading.bind_outcome h
  dsimp only at hmore
  split at hmore
  · rename_i hcomma
    obtain ⟨⟨rest, stop⟩, hrest, hpure⟩ := Reading.bind_outcome hmore
    obtain ⟨rfl, rfl⟩ := Prod.mk.inj (Except.ok.inj hpure)
    obtain ⟨hne, hspells⟩ := ih.expressions hrest
    obtain ⟨second, others, rfl⟩ := List.exists_cons_of_ne_nil hne
    rw [Expr.yieldItems]
    exact ⟨List.cons_ne_nil _ _,
      (ih.expression hfirst).append ((spells_sign hcomma (by decide)).append hspells)⟩
  · obtain ⟨rfl, rfl⟩ := Prod.mk.inj (Except.ok.inj hmore)
    rw [Expr.yieldItems]
    exact ⟨List.cons_ne_nil _ _, ih.expression hfirst⟩

theorem sound_entries {entries : List (Expr × Expr)} (ih : Sound tokens depth)
    (h : ((ofList tokens).entriesIn (depth + 1) offset).outcome = .ok (entries, next)) :
    Spells tokens (Expr.yieldEntries entries) offset next := by
  rw [entriesIn] at h
  split at h
  · obtain ⟨rfl, rfl⟩ := Prod.mk.inj (Except.ok.inj h)
    exact .nil
  · obtain ⟨⟨key, mid⟩, hkey, hbehindKey⟩ := Reading.bind_outcome h
    obtain ⟨start, hcolon, hbehindColon⟩ := Reading.bind_outcome hbehindKey
    obtain ⟨⟨value, stop⟩, hvalue, hmore⟩ := Reading.bind_outcome hbehindColon
    obtain ⟨hkind, rfl⟩ := expect_outcome hcolon
    dsimp only at hmore
    have hpair : Spells tokens (key.yield ++ .sign .colon :: value.yield) offset stop :=
      (ih.expression hkey).append ((spells_sign hkind (by decide)).append (ih.expression hvalue))
    split at hmore
    · rename_i hcomma
      obtain ⟨⟨rest, last⟩, hrest, hpure⟩ := Reading.bind_outcome hmore
      obtain ⟨rfl, rfl⟩ := Prod.mk.inj (Except.ok.inj hpure)
      have hspells := ih.entries hrest
      rcases rest with _ | ⟨entry, rest⟩
      · -- The comma is the trailing one.
        obtain rfl := hspells.eq_of_nil
        rw [Expr.yieldEntries]
        refine hpair.append (spells_plain ?_ hcomma rfl rfl)
        rw [hcomma]
        decide
      · rw [Expr.yieldEntries]
        exact hpair.append ((spells_sign hcomma (by decide)).append hspells)
    · obtain ⟨rfl, rfl⟩ := Prod.mk.inj (Except.ok.inj hmore)
      rw [Expr.yieldEntries]
      exact hpair.append (.missing .nil)

theorem sound_keys {base e : Expr} (ih : Sound tokens depth)
    (h : ((ofList tokens).keysIn (depth + 1) base offset).outcome = .ok (e, next)) :
    ∃ keys, e.yield = base.yield ++ keys ∧ Spells tokens keys offset next := by
  rw [keysIn] at h
  split at h
  · rename_i hopen
    obtain ⟨⟨key, mid⟩, hkey, h⟩ := Reading.bind_outcome h
    obtain ⟨start, hclose, h⟩ := Reading.bind_outcome h
    obtain ⟨hkind, rfl⟩ := expect_outcome hclose
    obtain ⟨keys, hyield, hkeys⟩ := ih.keys h
    have hone : Spells tokens (.attached .bracketOpen :: key.yield ++ [.sign .bracketClose])
        offset (mid + 1) :=
      ((spells_attached hopen.1 (by decide) (Bool.eq_false_iff.2 hopen.2)).append
        (ih.expression hkey)).append (spells_sign hkind (by decide))
    refine ⟨_, ?_, hone.append hkeys⟩
    rw [hyield, Expr.yield]
    simp only [List.append_assoc]
  · obtain ⟨rfl, rfl⟩ := Prod.mk.inj (Except.ok.inj h)
    exact ⟨[], (List.append_nil _).symm, .nil⟩

theorem sound_operand {e : Expr} (ih : Sound tokens depth)
    (h : ((ofList tokens).operandIn (depth + 1) offset).outcome = .ok (e, next)) :
    Spells tokens e.yield offset next := by
  rw [operandIn] at h
  split at h
  · rename_i denoted hdenoted
    obtain ⟨_, _, h⟩ := Reading.bind_outcome h
    obtain ⟨rfl, rfl⟩ := Prod.mk.inj (Except.ok.inj h)
    refine spells_plain ?_ ⟨denoted, hdenoted, rfl⟩ rfl rfl
    exact Token.kind_ne_of_denoted? hdenoted
  · split at h
    · rename_i hkind
      obtain ⟨⟨items, stop⟩, hitems, h⟩ := Reading.bind_outcome h
      obtain ⟨rfl, rfl⟩ := Prod.mk.inj (Except.ok.inj h)
      exact (spells_sign hkind (by decide)).append (ih.arguments (by decide) hitems)
    · rename_i hkind
      obtain ⟨⟨entries, mid⟩, hentries, h⟩ := Reading.bind_outcome h
      obtain ⟨stop, hclose, h⟩ := Reading.bind_outcome h
      obtain ⟨rfl, rfl⟩ := Prod.mk.inj (Except.ok.inj h)
      obtain ⟨hbrace, rfl⟩ := expect_outcome hclose
      exact ((spells_sign hkind (by decide)).append (ih.entries hentries)).append
        (spells_sign hbrace (by decide))
    · rename_i hkind
      obtain ⟨⟨inner, mid⟩, hinner, h⟩ := Reading.bind_outcome h
      obtain ⟨stop, hclose, h⟩ := Reading.bind_outcome h
      obtain ⟨rfl, rfl⟩ := Prod.mk.inj (Except.ok.inj h)
      obtain ⟨hparen, rfl⟩ := expect_outcome hclose
      exact ((spells_sign hkind (by decide)).append (ih.expression hinner)).append
        (spells_sign hparen (by decide))
    · rename_i hkind
      obtain ⟨⟨operand, stop⟩, hoperand, h⟩ := Reading.bind_outcome h
      obtain ⟨rfl, rfl⟩ := Prod.mk.inj (Except.ok.inj h)
      exact (spells_sign hkind (by decide)).append (ih.operand hoperand)
    · rename_i hkind
      obtain ⟨⟨operand, stop⟩, hoperand, h⟩ := Reading.bind_outcome h
      obtain ⟨rfl, rfl⟩ := Prod.mk.inj (Except.ok.inj h)
      exact (spells_sign hkind (by decide)).append (ih.operand hoperand)
    · rename_i hkind
      have hname : Spells tokens [.name ((ofList tokens).token offset).value] offset
          (offset + 1) := by
        refine spells_plain ?_ ⟨hkind, rfl⟩ rfl rfl
        rw [hkind]
        decide
      split at h
      · rename_i hparen
        obtain ⟨⟨args, stop⟩, hargs, h⟩ := Reading.bind_outcome h
        obtain ⟨rfl, rfl⟩ := Prod.mk.inj (Except.ok.inj h)
        have hopen := spells_attached hparen.1 (by decide) (Bool.eq_false_iff.2 hparen.2)
        exact hname.append (hopen.append (ih.arguments (by decide) hargs))
      · obtain ⟨keys, hyield, hkeys⟩ := ih.keys h
        rw [hyield]
        exact hname.append hkeys
    · cases h

/-- At every depth. -/
theorem sound (tokens : List Token) (depth : Nat) : Sound tokens depth := by
  induction depth with
  | zero => exact sound_zero tokens
  | succ depth ih =>
    exact {
      expression := sound_expression ih
      links := sound_links ih
      operand := sound_operand ih
      arguments := sound_arguments ih
      expressions := sound_expressions ih
      entries := sound_entries ih
      keys := sound_keys ih }

/-- Statements are read up to the end of file, if there may be as many as tokens are left. -/
theorem spells_statementsIn {bound : Nat} {p : Program}
    (hbound : ∀ k, offset + bound ≤ k → (ofList tokens).kind k = .endOfFile)
    (h : ((ofList tokens).statementsIn bound offset).outcome = .ok p) :
    ∃ stop, Spells tokens (p.flatMap fun st => st.expr.yield) offset stop ∧
      (ofList tokens).kind stop = .endOfFile := by
  induction bound generalizing offset p with
  | zero =>
    obtain rfl := Except.ok.inj h
    exact ⟨offset, .nil, hbound offset (Nat.le_refl _)⟩
  | succ bound ih =>
    rw [statementsIn] at h
    split at h
    · rename_i hkind
      obtain rfl := Except.ok.inj h
      exact ⟨offset, .nil, hkind⟩
    · obtain ⟨⟨e, next⟩, he, hrest⟩ := Reading.bind_outcome h
      dsimp only at hrest
      split at hrest
      · obtain ⟨rest, hothers, hpure⟩ := Reading.bind_outcome hrest
        obtain rfl := Except.ok.inj hpure
        have hspells := (sound tokens _).expression he
        have hlt := hspells.lt
        obtain ⟨stop, hstop, hkind⟩ := ih (fun k hk => hbound k (by omega)) hothers
        exact ⟨stop, hspells.append hstop, hkind⟩
      · cases hrest

end TokenStream

open TokenStream

/-- **Readings keep the tokens.** An expression that is read from a list of tokens is spelled by the
tokens from the offset where the reading starts up to the one it returns, and the statements of a
program are spelled by all tokens in front of the first end of file. -/
theorem Program.readings_keep_tokens (tokens : List Token) :
    (∀ offset e next, ((ofList tokens).expression offset).outcome = .ok (e, next) →
      offset < next ∧ next ≤ tokens.length ∧ Spells tokens e.yield offset next) ∧
      ∀ p, (Program.ofTokens tokens).outcome = .ok p →
        Spells tokens (p.flatMap fun st => st.expr.yield) 0
          (tokens.findIdx fun t => t.kind = .endOfFile) := by
  refine ⟨fun offset e next h => ?_, fun p h => ?_⟩
  · have hspells := (sound tokens _).expression h
    exact ⟨hspells.lt, hspells.le_length hspells.lt, hspells⟩
  · obtain ⟨stop, hspells, hkind⟩ := spells_statementsIn (fun k hk => kind_of_size_le (by omega)) h
    rwa [findIdx_of_spells hspells hkind]

/-- `x = {true: -b[i],}`, with line ends inside the braces, and `f()` -/
def Program.trailingComma : List Token :=
  [⟨.identifier, "x", false, default⟩, ⟨.assign, "=", false, default⟩,
    ⟨.braceOpen, "\x7b", true, default⟩, ⟨.boolLiteral, "true", false, default⟩,
    ⟨.colon, ":", true, default⟩, ⟨.minus, "-", false, default⟩, ⟨.identifier, "b", false, default⟩,
    ⟨.bracketOpen, "[", false, default⟩, ⟨.identifier, "i", false, default⟩,
    ⟨.bracketClose, "]", false, default⟩, ⟨.comma, ",", true, default⟩,
    ⟨.braceClose, "\x7d", true, default⟩, ⟨.identifier, "f", false, default⟩,
    ⟨.parenOpen, "(", false, default⟩, ⟨.parenClose, ")", true, default⟩,
    ⟨.endOfFile, "", true, default⟩]

/-- The map is read with the comma in front of its closing brace, the value in front of the comma
without it, and nothing is read of the end of file. -/
theorem Program.readings_keep_tokens_trailingComma :
    (∃ p, (Program.ofTokens trailingComma).outcome = .ok p ∧
      p.map Statement.expr = [.binary (.ident "x") .assign (.map [(.literal (.bool true),
        .unary .negate (.element (.ident "b") (.ident "i")))]), .call "f" []] ∧
      Spells trailingComma (p.flatMap fun st => st.expr.yield) 0 15) ∧
      ∃ e, ((ofList trailingComma).expression 5).outcome = .ok (e, 10) ∧
        Spells trailingComma e.yield 5 10 := by
  refine ⟨⟨_, by with_unfolding_all rfl, rfl, ?_⟩, _, by with_unfolding_all rfl, ?_⟩
  · exact (readings_keep_tokens trailingComma).2 _ (by with_unfolding_all rfl)
  · exact ((readings_keep_tokens trailingComma).1 5 _ 10 (by with_unfolding_all rfl)).2.2

end LineScript
