import LineScript.Proofs.Expr.WellFormed

/-!
# Precedence and grouping of chains

Textbooks define the tree of a chain of operators from the top. The operator that binds least
tightly is the root; of several that bind alike it is the first, if they are assignments, and the
last otherwise. What stands in front of it is its left operand and what stands behind it is its
right operand, each a shorter chain. `Textbook` is this definition, for operands of any type, that
it never looks into.

`Expr.ofChain` works from the left and never looks for a least operator. It builds the same tree
(`Expr.ofChain_textbook`). The step is `Expr.climb_append`: climbing over an operator that goes into
no right operand in front of it is climbing up to that operator first, and then over it.
-/

set_option autoImplicit false

namespace LineScript

/-! ## The definition of the textbooks -/

/-- Operators over operands that they are opaque to. -/
inductive OperatorTree (α : Type) where
  | operand (a : α)
  | node (left : OperatorTree α) (op : BinaryOp) (right : OperatorTree α)

namespace OperatorTree

variable {α : Type}

/-- The operands, from left to right. -/
def operands : OperatorTree α → List α
  | .operand a => [a]
  | .node left _ right => left.operands ++ right.operands

/-- The operators, from left to right. -/
def operators : OperatorTree α → List BinaryOp
  | .operand _ => []
  | .node left op right => left.operators ++ op :: right.operators

/-- The tree as an expression. -/
def toExpr : OperatorTree Expr → Expr
  | .operand e => e
  | .node left op right => .binary left.toExpr op right.toExpr

end OperatorTree

/-- The place where a chain comes apart: an operator of least precedence, with no other of the same
precedence in front of it, if it is an assignment, and behind it, if it is none. -/
structure SplitsAt {α : Type} (before : List (BinaryOp × α)) (op : BinaryOp)
    (after : List (BinaryOp × α)) : Prop where
  before_ge : ∀ link ∈ before, op.precedence ≤ link.1.precedence
  after_ge : ∀ link ∈ after, op.precedence ≤ link.1.precedence
  leftmost : op.isAssignment = true → ∀ link ∈ before, link.1.precedence ≠ op.precedence
  rightmost : op.isAssignment = false → ∀ link ∈ after, link.1.precedence ≠ op.precedence

/-- The tree of a chain, from the top. -/
inductive Textbook {α : Type} : α → List (BinaryOp × α) → OperatorTree α → Prop where
  | operand (first : α) : Textbook first [] (.operand first)
  | node {first right : α} {before after : List (BinaryOp × α)} {op : BinaryOp}
      {left' right' : OperatorTree α} (hsplit : SplitsAt before op after)
      (hleft : Textbook first before left') (hright : Textbook right after right') :
      Textbook first (before ++ (op, right) :: after) (.node left' op right')

section Chains

variable {α : Type} {before after before' after' : List (BinaryOp × α)} {op op' : BinaryOp}
    {right right' : α}

namespace SplitsAt

/-- No operator in front of the place has the operator there in its right operand. -/
theorem lt_rightPrecedence (h : SplitsAt before op after) :
    ∀ link ∈ before, op.precedence < link.1.rightPrecedence := by
  intro link hlink
  have hge := h.before_ge link hlink
  rcases Nat.lt_or_eq_of_le hge with hlt | heq
  · exact Nat.lt_of_lt_of_le hlt link.1.le_rightPrecedence
  · -- Operators of one precedence are all assignments or none of them is.
    have hop : op.isAssignment = false := by
      by_contra hassign
      exact h.leftmost (by simpa using hassign) link hlink heq.symm
    have hlinkop : link.1.isAssignment = false := by
      by_contra hassign
      have hone := link.1.isAssignment_iff.1 (by simpa using hassign)
      rw [op.isAssignment_iff.2 (heq.trans hone)] at hop
      cases hop
    rw [BinaryOp.rightPrecedence, hlinkop]
    exact Nat.lt_succ_of_le hge

/-- All operators behind the place go into the right operand of the operator there. -/
theorem rightPrecedence_le (h : SplitsAt before op after) :
    ∀ link ∈ after, op.rightPrecedence ≤ link.1.precedence := by
  intro link hlink
  have hge := h.after_ge link hlink
  unfold BinaryOp.rightPrecedence
  split
  · exact hge
  · rename_i hassign
    have hne := h.rightmost (by simpa using hassign) link hlink
    omega

/-- One more link in front, with an operator that binds tighter. -/
theorem cons {link : BinaryOp × α} (h : SplitsAt before op after)
    (hlt : op.precedence < link.1.precedence) : SplitsAt (link :: before) op after where
  before_ge := List.forall_mem_cons.2 ⟨hlt.le, h.before_ge⟩
  after_ge := h.after_ge
  leftmost hassign := List.forall_mem_cons.2 ⟨hlt.ne', h.leftmost hassign⟩
  rightmost := h.rightmost

/-- One more link in front, with an operator that binds alike and is no assignment. -/
theorem cons_of_eq {link : BinaryOp × α} (h : SplitsAt before op after)
    (heq : op.precedence = link.1.precedence) (hassign : op.isAssignment = false) :
    SplitsAt (link :: before) op after where
  before_ge := List.forall_mem_cons.2 ⟨heq.le, h.before_ge⟩
  after_ge := h.after_ge
  leftmost htrue := by
    rw [hassign] at htrue
    cases htrue
  rightmost := h.rightmost

/-- The first operator of a chain, if all others bind tighter, or alike as assignments. -/
theorem nil (hge : ∀ link ∈ after, op.precedence ≤ link.1.precedence)
    (hne : op.isAssignment = false → ∀ link ∈ after, link.1.precedence ≠ op.precedence) :
    SplitsAt [] op after where
  before_ge := fun link hlink => by cases hlink
  after_ge := hge
  leftmost := fun _ link hlink => by cases hlink
  rightmost := hne

/-- Every chain with an operator comes apart at some place. -/
theorem exists_split (link : BinaryOp × α) (links : List (BinaryOp × α)) :
    ∃ before op right after, link :: links = before ++ (op, right) :: after ∧
      SplitsAt before op after := by
  induction links generalizing link with
  | nil => exact ⟨[], link.1, link.2, [], rfl, nil (by simp) (by simp)⟩
  | cons next links ih =>
    obtain ⟨before, op, right, after, heq, hsplit⟩ := ih next
    have hall : ∀ other ∈ next :: links, op.precedence ≤ other.1.precedence := by
      rw [heq]
      exact List.forall_mem_append.2
        ⟨hsplit.before_ge, List.forall_mem_cons.2 ⟨Nat.le_refl _, hsplit.after_ge⟩⟩
    rcases Nat.lt_trichotomy op.precedence link.1.precedence with hlt | hsame | hgt
    · exact ⟨link :: before, op, right, after, by rw [heq]; rfl, hsplit.cons hlt⟩
    · -- The new link binds like the least of the others: the grouping decides.
      cases hassign : op.isAssignment with
      | false =>
        exact ⟨link :: before, op, right, after, by rw [heq]; rfl, hsplit.cons_of_eq hsame hassign⟩
      | true =>
        refine ⟨[], link.1, link.2, next :: links, rfl,
          nil (fun other hother => hsame ▸ hall other hother) ?_⟩
        intro hfalse
        have hone := op.isAssignment_iff.1 hassign
        rw [link.1.isAssignment_iff.2 (hsame.symm.trans hone)] at hfalse
        cases hfalse
    · refine ⟨[], link.1, link.2, next :: links, rfl,
        nil (fun other hother => hgt.le.trans (hall other hother)) ?_⟩
      intro _ other hother heq
      have hle := hall other hother
      omega

/-- Of two places in a chain, one behind the other, one is no place to split at. -/
theorem not_twice (h : SplitsAt before op (after ++ (op', right') :: after'))
    (h' : SplitsAt (before ++ (op, right) :: after) op' after') : False := by
  have hsecond : (op', right') ∈ after ++ (op', right') :: after' := by simp
  have hfirst : (op, right) ∈ before ++ (op, right) :: after := by simp
  have hsame : op.precedence = op'.precedence :=
    Nat.le_antisymm (h.after_ge _ hsecond) (h'.before_ge _ hfirst)
  cases hassign : op.isAssignment with
  | false => exact h.rightmost hassign _ hsecond hsame.symm
  | true =>
    have hassign' : op'.isAssignment = true :=
      op'.isAssignment_iff.2 (hsame.symm.trans (op.isAssignment_iff.1 hassign))
    exact h'.leftmost hassign' _ hfirst hsame

/-- A chain comes apart at one place only. -/
theorem unique (h : SplitsAt before op after) (h' : SplitsAt before' op' after')
    (heq : before ++ (op, right) :: after = before' ++ (op', right') :: after') :
    before = before' ∧ op = op' ∧ right = right' ∧ after = after' := by
  rcases List.append_eq_append_iff.1 heq with ⟨between, rfl, hback⟩ | ⟨between, rfl, hback⟩
  · cases between with
    | nil => simpa [and_assoc] using hback
    | cons link between =>
      obtain ⟨rfl, rfl⟩ := List.cons.inj hback
      exact (h.not_twice h').elim
  · cases between with
    | nil => simpa [and_assoc, eq_comm] using hback
    | cons link between =>
      obtain ⟨rfl, rfl⟩ := List.cons.inj hback
      exact (h'.not_twice h).elim

end SplitsAt

/-- Every chain has a tree, and only one, with its operators and operands in their order. -/
theorem existsUnique_textbook (first : α) (links : List (BinaryOp × α)) :
    ∃ tree, (∀ other, Textbook first links other ↔ other = tree) ∧
      tree.operands = first :: links.map Prod.snd ∧ tree.operators = links.map Prod.fst := by
  induction hn : links.length using Nat.strong_induction_on generalizing first links with
  | _ n ih =>
    cases links with
    | nil =>
      refine ⟨.operand first, fun other => ⟨fun h => ?_, fun h => h ▸ .operand first⟩, rfl, rfl⟩
      generalize hlinks : ([] : List (BinaryOp × α)) = links at h
      cases h with
      | operand => rfl
      | node => simp at hlinks
    | cons link links =>
      obtain ⟨before, op, right, after, heq, hsplit⟩ := SplitsAt.exists_split link links
      rw [heq] at hn ⊢
      rw [List.length_append, List.length_cons] at hn
      obtain ⟨leftTree, hleft, hloperands, hloperators⟩ :=
        ih before.length (by omega) first before rfl
      obtain ⟨rightTree, hright, hroperands, hroperators⟩ :=
        ih after.length (by omega) right after rfl
      refine ⟨.node leftTree op rightTree, fun other => ⟨fun h => ?_, fun h => ?_⟩, ?_, ?_⟩
      · generalize hlinks : before ++ (op, right) :: after = links at h
        cases h with
        | operand => simp at hlinks
        | node hsplit' hleft' hright' =>
          obtain ⟨rfl, rfl, rfl, rfl⟩ := hsplit.unique hsplit' hlinks
          rw [(hleft _).1 hleft', (hright _).1 hright']
      · subst h
        exact .node hsplit ((hleft _).2 rfl) ((hright _).2 rfl)
      · simp [OperatorTree.operands, hloperands, hroperands]
      · simp [OperatorTree.operators, hloperators, hroperators]

end Chains

/-! ## Climbing -/

namespace Expr

variable {bound least : Nat} {first left right : Expr} {before after chain : Links} {op : BinaryOp}

theorem climb_nil (bound least : Nat) (left : Expr) : climb bound least left [] = (left, []) := by
  cases bound <;> rfl

/-- What climbing leaves is an end of the chain. -/
theorem climb_suffix (bound least : Nat) (left : Expr) (chain : Links) :
    (climb bound least left chain).2 <:+ chain := by
  induction bound generalizing least left chain with
  | zero => exact List.suffix_refl _
  | succ bound ih =>
    cases chain with
    | nil => exact List.suffix_refl _
    | cons link chain =>
      obtain ⟨op, right⟩ := link
      rw [climb]
      split
      · exact List.suffix_refl _
      · exact ((ih _ _ _).trans (ih _ _ _)).trans (List.suffix_cons _ _)

/-- **Climbing along the front of a chain first.** An operator that is in no right operand of those
in front of it is met by the tree of all that is in front of it. -/
theorem climb_append (hlength : (before ++ (op, right) :: after).length ≤ bound)
    (hbefore : ∀ link ∈ before, op.precedence < link.1.rightPrecedence) :
    climb bound least left (before ++ (op, right) :: after) =
      climb bound least (climb bound least left before).1
        ((climb bound least left before).2 ++ (op, right) :: after) := by
  induction hn : before.length using Nat.strong_induction_on generalizing least left before with
  | _ n ih =>
    cases before with
    | nil => rw [climb_nil, List.nil_append]
    | cons link before =>
      obtain ⟨inner, operand⟩ := link
      rw [List.cons_append, List.length_cons] at hlength
      rw [List.length_cons] at hn
      have hfront : before.length < bound := by
        rw [List.length_append] at hlength
        omega
      obtain ⟨hinner, hothers⟩ := List.forall_mem_cons.1 hbefore
      rcases Nat.lt_or_ge inner.precedence least with hlt | hge
      · have hstays : climb bound least left ((inner, operand) :: before) =
            (left, (inner, operand) :: before) := by
          refine climb_of_lt fun link hlink => ?_
          obtain rfl : (inner, operand) = link := by simpa using hlink
          exact hlt
        rw [hstays]
      · -- The right operand ends where it ended without the rest of the chain.
        have hstops := (climb_stops inner.rightPrecedence operand hfront.le).2
        have hrest := climb_suffix bound inner.rightPrecedence operand before
        have hoperand : climb bound inner.rightPrecedence operand (before ++ (op, right) :: after) =
            ((climb bound inner.rightPrecedence operand before).1,
              (climb bound inner.rightPrecedence operand before).2 ++ (op, right) :: after) := by
          rw [ih before.length (by omega) (Nat.le_of_succ_le hlength) hothers rfl]
          refine climb_of_lt fun link hlink => ?_
          cases hleft : (climb bound inner.rightPrecedence operand before).2 with
          | nil =>
            rw [hleft] at hlink
            obtain rfl : (op, right) = link := by simpa using hlink
            exact hinner
          | cons next rest =>
            rw [hleft] at hlink hstops
            exact hstops link hlink
        have hshort : ((climb bound inner.rightPrecedence operand before).2 ++
            (op, right) :: after).length ≤ bound := by
          have hle := hrest.length_le
          rw [List.length_append] at hlength ⊢
          omega
        rw [List.cons_append, climb_cons (Nat.lt_of_succ_le hlength) hge,
          climb_cons hfront hge, hoperand]
        exact ih _ (Nat.lt_of_le_of_lt hrest.length_le (by omega)) hshort
          (fun link hlink => hothers link (hrest.mem hlink)) rfl

/-- A chain of operators that all bind at least as tightly as asked is climbed to its end. -/
theorem climb_all (hlength : chain.length ≤ bound)
    (hleast : ∀ link ∈ chain, least ≤ link.1.precedence) :
    climb bound least left chain = (ofChain left chain, []) := by
  induction hn : chain.length using Nat.strong_induction_on generalizing left chain bound with
  | _ n ih =>
    cases chain with
    | nil => rw [climb_nil, ofChain, climb_nil]
    | cons link chain =>
      obtain ⟨op, right⟩ := link
      rw [List.length_cons] at hn hlength
      have hlt : chain.length < bound := Nat.lt_of_succ_le hlength
      obtain ⟨hop, hothers⟩ := List.forall_mem_cons.1 hleast
      have hrest := climb_suffix bound op.rightPrecedence right chain
      have hsame : climb bound op.rightPrecedence right chain =
          climb (chain.length + 1) op.rightPrecedence right chain :=
        climb_congr hlt.le (Nat.le_succ _)
      have hchain : ofChain left ((op, right) :: chain) =
          ofChain (.binary left op (climb bound op.rightPrecedence right chain).1)
            (climb bound op.rightPrecedence right chain).2 := by
        rw [ofChain, List.length_cons, climb_cons (Nat.lt_succ_self _) (Nat.zero_le _), ← hsame]
        exact congrArg Prod.fst
          (climb_congr (hrest.length_le.trans (Nat.le_succ _)) (Nat.le_refl _))
      rw [hchain, climb_cons hlt hop]
      exact ih _ (Nat.lt_of_le_of_lt hrest.length_le (by omega)) (hrest.length_le.trans hlt.le)
        (fun link hlink => hothers link (hrest.mem hlink)) rfl

/-- The tree of a chain has the operator at its root that the chain comes apart at. -/
theorem ofChain_split (h : SplitsAt before op after) :
    ofChain first (before ++ (op, right) :: after) =
      .binary (ofChain first before) op (ofChain right after) := by
  rw [ofChain]
  generalize hbound : (before ++ (op, right) :: after).length = bound
  have hlengths : before.length + (after.length + 1) = bound := by
    rw [← hbound, List.length_append, List.length_cons]
  have hfront : climb bound 0 first before = (ofChain first before, []) :=
    climb_all (by omega) fun _ _ => Nat.zero_le _
  have hback : climb bound op.rightPrecedence right after = (ofChain right after, []) :=
    climb_all (by omega) h.rightPrecedence_le
  rw [climb_append hbound.le h.lt_rightPrecedence, hfront, List.nil_append,
    climb_cons (by omega) (Nat.zero_le _), hback, climb_nil]

/-- A tree from the textbook is the tree that climbing builds. -/
theorem toExpr_of_textbook {links : Links} {tree : OperatorTree Expr}
    (h : Textbook first links tree) : tree.toExpr = ofChain first links := by
  induction h with
  | operand first => rfl
  | node split _ _ ihl ihr => rw [OperatorTree.toExpr, ofChain_split split, ihl, ihr]

/-- **Chains group as in the textbooks.** The tree of a chain of operators, of any length and over
any operands, is the tree that the textbook defines, and that it defines it alone: it comes apart at
the operator that binds least, the first of these if they are assignments and the last otherwise.
The operands and operators stand in the tree as they stand in the chain. -/
theorem ofChain_textbook (first : Expr) (links : Links) :
    ∃ tree : OperatorTree Expr, tree.toExpr = ofChain first links ∧
      (∀ other, Textbook first links other ↔ other = tree) ∧
      tree.operands = first :: links.map Prod.snd ∧ tree.operators = links.map Prod.fst := by
  obtain ⟨tree, hunique, horder⟩ := existsUnique_textbook first links
  exact ⟨tree, toExpr_of_textbook ((hunique tree).2 rfl), hunique, horder⟩

end Expr

end LineScript
