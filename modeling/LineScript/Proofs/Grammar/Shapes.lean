import LineScript.Proofs.Expr.WellFormed
import LineScript.Proofs.Spelling

/-!
# What is read is well-formed

The functions of the grammar put operands where a tree asks for them: no chain of operators stands
behind a sign, and keys stand behind names only. With these operands, the tree of a chain is
well-formed whatever its operators are. As in `Sound` it is one induction on the depth for all seven
functions.
-/

set_option autoImplicit false

namespace LineScript

namespace TokenStream

/-- Up to a depth, everything that is read is well-formed, operands are no chains of operators, and
keys stand behind names. -/
structure Shapes (ts : TokenStream) (depth : Nat) : Prop where
  expression :
      ∀ {offset e next}, (ts.expressionIn depth offset).outcome = .ok (e, next) → e.WellFormed
  links : ∀ {offset links next}, (ts.linksIn depth offset).outcome = .ok (links, next) →
    ∀ link ∈ links, link.2.WellFormed ∧ link.2.isBinary = false
  operand :
      ∀ {offset e next}, (ts.operandIn depth offset).outcome = .ok (e, next) →
        e.WellFormed ∧ e.isBinary = false
  arguments :
      ∀ {close offset items next}, (ts.argumentsIn depth close offset).outcome = .ok (items, next) →
        ∀ e ∈ items, e.WellFormed
  expressions : ∀ {offset items next}, (ts.expressionsIn depth offset).outcome = .ok (items, next) →
    ∀ e ∈ items, e.WellFormed
  entries : ∀ {offset entries next}, (ts.entriesIn depth offset).outcome = .ok (entries, next) →
    ∀ p ∈ entries, p.1.WellFormed ∧ p.2.WellFormed
  keys : ∀ {base offset e next}, (ts.keysIn depth base offset).outcome = .ok (e, next) →
    base.WellFormed → base.isNamed = true → e.WellFormed ∧ e.isNamed = true

variable {ts : TokenStream} {depth offset next : Nat}

/-- Without depth nothing is read but an empty chain and a name as it stands, so there is nothing to
show but for the name that was handed in. -/
theorem shapes_zero (ts : TokenStream) : Shapes ts 0 where
  expression h := by
    rw [expressionIn] at h
    cases h
  links h := by
    rw [linksIn] at h
    obtain ⟨rfl, rfl⟩ := Prod.mk.inj (Except.ok.inj h)
    exact List.forall_mem_nil _
  operand h := by
    rw [operandIn] at h
    cases h
  arguments h := by
    rw [argumentsIn] at h
    cases h
  expressions h := by
    rw [expressionsIn] at h
    cases h
  entries h := by
    rw [entriesIn] at h
    cases h
  keys h hbase hnamed := by
    rw [keysIn] at h
    obtain ⟨rfl, rfl⟩ := Prod.mk.inj (Except.ok.inj h)
    exact ⟨hbase, hnamed⟩

/-- An operand and the links behind it become the tree of their chain, which is well-formed because
none of its operands is a chain itself. -/
theorem shapes_expression {e : Expr} (ih : Shapes ts depth)
    (h : (ts.expressionIn (depth + 1) offset).outcome = .ok (e, next)) : e.WellFormed := by
  rw [expressionIn] at h
  obtain ⟨⟨first, mid⟩, hfirst, h⟩ := Reading.bind_outcome h
  obtain ⟨⟨links, stop⟩, hlinks, h⟩ := Reading.bind_outcome h
  obtain ⟨rfl, rfl⟩ := Prod.mk.inj (Except.ok.inj h)
  obtain ⟨hwf, hsingle⟩ := ih.operand hfirst
  exact Expr.wellFormed_ofChain hwf hsingle (ih.links hlinks)

/-- Links stop at a line end or at a token that is no operator. Each of them is an operand, by the
hypothesis one level down. -/
theorem shapes_links {links : Expr.Links} (ih : Shapes ts depth)
    (h : (ts.linksIn (depth + 1) offset).outcome = .ok (links, next)) :
    ∀ link ∈ links, link.2.WellFormed ∧ link.2.isBinary = false := by
  have hnone : ∀ {links next},
      (pure ([], offset) : Reading (Expr.Links × Nat)).outcome = .ok (links, next) →
      ∀ link ∈ links, link.2.WellFormed ∧ link.2.isBinary = false := by
    intro links next h
    obtain ⟨rfl, rfl⟩ := Prod.mk.inj (Except.ok.inj h)
    exact List.forall_mem_nil _
  rw [linksIn] at h
  split at h
  · exact hnone h
  · split at h
    · exact hnone h
    · split at h
      · cases h
      · obtain ⟨⟨right, mid⟩, hright, h⟩ := Reading.bind_outcome h
        obtain ⟨⟨rest, stop⟩, hrest, h⟩ := Reading.bind_outcome h
        obtain ⟨rfl, rfl⟩ := Prod.mk.inj (Except.ok.inj h)
        exact List.forall_mem_cons.2 ⟨ih.operand hright, ih.links hrest⟩

/-- The arguments of a call and the items of an array: none at all, or a list in front of the
closing bracket. -/
theorem shapes_arguments {close : TokenKind} {items : List Expr} (ih : Shapes ts depth)
    (h : (ts.argumentsIn (depth + 1) close offset).outcome = .ok (items, next)) :
    ∀ e ∈ items, e.WellFormed := by
  rw [argumentsIn] at h
  split at h
  · obtain ⟨rfl, rfl⟩ := Prod.mk.inj (Except.ok.inj h)
    exact List.forall_mem_nil _
  · obtain ⟨⟨items, mid⟩, hitems, h⟩ := Reading.bind_outcome h
    obtain ⟨stop, _, h⟩ := Reading.bind_outcome h
    obtain ⟨rfl, rfl⟩ := Prod.mk.inj (Except.ok.inj h)
    exact ih.expressions hitems

/-- One expression, and more behind each comma. -/
theorem shapes_expressions {items : List Expr} (ih : Shapes ts depth)
    (h : (ts.expressionsIn (depth + 1) offset).outcome = .ok (items, next)) :
    ∀ e ∈ items, e.WellFormed := by
  rw [expressionsIn] at h
  obtain ⟨⟨first, mid⟩, hfirst, hmore⟩ := Reading.bind_outcome h
  dsimp only at hmore
  split at hmore
  · obtain ⟨⟨rest, stop⟩, hrest, hpure⟩ := Reading.bind_outcome hmore
    obtain ⟨rfl, rfl⟩ := Prod.mk.inj (Except.ok.inj hpure)
    exact List.forall_mem_cons.2 ⟨ih.expression hfirst, ih.expressions hrest⟩
  · obtain ⟨rfl, rfl⟩ := Prod.mk.inj (Except.ok.inj hmore)
    exact List.forall_mem_singleton.2 (ih.expression hfirst)

/-- Entries come in pairs. A comma at the end of a map leads to an empty rest, which is why the list
may end in either branch. -/
theorem shapes_entries {entries : List (Expr × Expr)} (ih : Shapes ts depth)
    (h : (ts.entriesIn (depth + 1) offset).outcome = .ok (entries, next)) :
    ∀ p ∈ entries, p.1.WellFormed ∧ p.2.WellFormed := by
  rw [entriesIn] at h
  split at h
  · obtain ⟨rfl, rfl⟩ := Prod.mk.inj (Except.ok.inj h)
    exact List.forall_mem_nil _
  · obtain ⟨⟨key, mid⟩, hkey, hbehindKey⟩ := Reading.bind_outcome h
    obtain ⟨start, _, hbehindColon⟩ := Reading.bind_outcome hbehindKey
    obtain ⟨⟨value, stop⟩, hvalue, hmore⟩ := Reading.bind_outcome hbehindColon
    have hpair := And.intro (ih.expression hkey) (ih.expression hvalue)
    dsimp only at hmore
    split at hmore
    · obtain ⟨⟨rest, last⟩, hrest, hpure⟩ := Reading.bind_outcome hmore
      obtain ⟨rfl, rfl⟩ := Prod.mk.inj (Except.ok.inj hpure)
      exact List.forall_mem_cons.2 ⟨hpair, ih.entries hrest⟩
    · obtain ⟨rfl, rfl⟩ := Prod.mk.inj (Except.ok.inj hmore)
      exact List.forall_mem_singleton.2 hpair

/-- The base of an element is the name with the keys read so far, so the hypothesis on the base is
handed on with every key. It is where an element of anything but a name is ruled out. -/
theorem shapes_keys {base e : Expr} (ih : Shapes ts depth)
    (h : (ts.keysIn (depth + 1) base offset).outcome = .ok (e, next)) (hbase : base.WellFormed)
    (hnamed : base.isNamed = true) : e.WellFormed ∧ e.isNamed = true := by
  rw [keysIn] at h
  split at h
  · obtain ⟨⟨key, mid⟩, hkey, h⟩ := Reading.bind_outcome h
    obtain ⟨start, _, h⟩ := Reading.bind_outcome h
    exact ih.keys h (Expr.all_element_iff.2 ⟨hnamed, hbase, ih.expression hkey⟩) rfl
  · obtain ⟨rfl, rfl⟩ := Prod.mk.inj (Except.ok.inj h)
    exact ⟨hbase, hnamed⟩

/-- The one place where trees are made, with one case for each token that an operand can start with.
A sign takes an operand, never an expression, so no chain gets behind it. -/
theorem shapes_operand {e : Expr} (ih : Shapes ts depth)
    (h : (ts.operandIn (depth + 1) offset).outcome = .ok (e, next)) :
    e.WellFormed ∧ e.isBinary = false := by
  rw [operandIn] at h
  split at h
  · rename_i denoted hdenoted
    obtain ⟨_, _, h⟩ := Reading.bind_outcome h
    obtain ⟨rfl, rfl⟩ := Prod.mk.inj (Except.ok.inj h)
    exact ⟨Expr.all_iff.2 ⟨⟨_, denoted, hdenoted, rfl⟩, List.forall_mem_nil _⟩, rfl⟩
  · split at h
    · obtain ⟨⟨items, stop⟩, hitems, h⟩ := Reading.bind_outcome h
      obtain ⟨rfl, rfl⟩ := Prod.mk.inj (Except.ok.inj h)
      exact ⟨Expr.all_array_iff.2 ⟨trivial, ih.arguments hitems⟩, rfl⟩
    · obtain ⟨⟨entries, mid⟩, hentries, h⟩ := Reading.bind_outcome h
      obtain ⟨stop, _, h⟩ := Reading.bind_outcome h
      obtain ⟨rfl, rfl⟩ := Prod.mk.inj (Except.ok.inj h)
      exact ⟨Expr.all_map_iff.2 ⟨trivial, ih.entries hentries⟩, rfl⟩
    · obtain ⟨⟨inner, mid⟩, hinner, h⟩ := Reading.bind_outcome h
      obtain ⟨stop, _, h⟩ := Reading.bind_outcome h
      obtain ⟨rfl, rfl⟩ := Prod.mk.inj (Except.ok.inj h)
      exact ⟨Expr.all_group_iff.2 ⟨trivial, ih.expression hinner⟩, rfl⟩
    · obtain ⟨⟨operand, stop⟩, hoperand, h⟩ := Reading.bind_outcome h
      obtain ⟨rfl, rfl⟩ := Prod.mk.inj (Except.ok.inj h)
      obtain ⟨hwf, hsingle⟩ := ih.operand hoperand
      exact ⟨Expr.all_unary_iff.2 ⟨hsingle, hwf⟩, rfl⟩
    · obtain ⟨⟨operand, stop⟩, hoperand, h⟩ := Reading.bind_outcome h
      obtain ⟨rfl, rfl⟩ := Prod.mk.inj (Except.ok.inj h)
      obtain ⟨hwf, hsingle⟩ := ih.operand hoperand
      exact ⟨Expr.all_unary_iff.2 ⟨hsingle, hwf⟩, rfl⟩
    · split at h
      · obtain ⟨⟨args, stop⟩, hargs, h⟩ := Reading.bind_outcome h
        obtain ⟨rfl, rfl⟩ := Prod.mk.inj (Except.ok.inj h)
        exact ⟨Expr.all_call_iff.2 ⟨trivial, ih.arguments hargs⟩, rfl⟩
      · have hident : (Expr.ident (ts.token offset).value).WellFormed :=
          Expr.all_iff.2 ⟨trivial, List.forall_mem_nil _⟩
        obtain ⟨hwf, hnamed⟩ := ih.keys h hident rfl
        exact ⟨hwf, Expr.isBinary_of_named hnamed⟩
    · cases h

/-- At every depth. -/
theorem shapes (ts : TokenStream) (depth : Nat) : Shapes ts depth := by
  induction depth with
  | zero => exact shapes_zero ts
  | succ depth ih =>
    exact {
      expression := shapes_expression ih
      links := shapes_links ih
      operand := shapes_operand ih
      arguments := shapes_arguments ih
      expressions := shapes_expressions ih
      entries := shapes_entries ih
      keys := shapes_keys ih }

end TokenStream

end LineScript
