import LineScript.Proofs.Expr.Yield
import LineScript.Proofs.Grammar.Literal

/-!
# Well-formed expressions

Brackets are a part of the tree, so not every tree can be written down and read again: where an
operator binds less tightly than the one above it, its operands would be taken apart.
`Expr.WellFormed` are the trees that need no brackets that they do not have.

`Expr.first` and `Expr.links` flatten a tree to the chain of operators it is written as. Building
the tree of a chain gives a well-formed tree, if the operands are well-formed
(`wellFormed_ofChain`), and it gives back the tree that was flattened, if that was well-formed
(`ofChain_links`). Both rest on what climbing leaves behind: an operator stops it exactly where the
tree so far may be its left operand.
-/

set_option autoImplicit false

namespace LineScript

theorem BinaryOp.isAssignment_iff (op : BinaryOp) : op.isAssignment = true ↔ op.precedence = 1 := by
  rcases op with (_ | _ | _ | _ | _) | (_ | _ | _ | _ | _ | _) | _ | _ | _ | (_ | _ | _ | _ | _) <;>
    decide

theorem BinaryOp.one_le_precedence (op : BinaryOp) : 1 ≤ op.precedence := by
  rcases op with (_ | _ | _ | _ | _) | (_ | _ | _ | _ | _ | _) | _ | _ | _ | (_ | _ | _ | _ | _) <;>
    decide

theorem BinaryOp.le_rightPrecedence (op : BinaryOp) : op.precedence ≤ op.rightPrecedence := by
  unfold rightPrecedence
  split <;> omega

theorem BinaryOp.rightPrecedence_le (op : BinaryOp) : op.rightPrecedence ≤ op.precedence + 1 := by
  unfold rightPrecedence
  split <;> omega

namespace Expr

/-! ## Shapes -/

def isBinary : Expr → Bool
  | .binary .. => true
  | _ => false

/-- A variable or an element: what keys can stand behind. -/
def isNamed : Expr → Bool
  | .ident _ => true
  | .element .. => true
  | _ => false

theorem isBinary_of_named {e : Expr} (h : e.isNamed = true) : e.isBinary = false := by
  cases e with
  | binary => cases h
  | _ => rfl

/-- The left operand of an operator: an operator in it binds tighter, or as tightly as one that is
no assignment. -/
def FitsLeft (op : BinaryOp) : Expr → Prop
  | .binary _ inner _ =>
    op.precedence < inner.precedence ∨ op.precedence = inner.precedence ∧ op.isAssignment = false
  | _ => True

/-- The right operand of an operator: an operator in it binds tighter, or as tightly as an
assignment. -/
def FitsRight (op : BinaryOp) : Expr → Prop
  | .binary _ inner _ =>
    op.precedence < inner.precedence ∨ op.precedence = inner.precedence ∧ op.isAssignment = true
  | _ => True

/-- What a node asks of the nodes right below it. -/
def Shaped : Expr → Prop
  | .literal value => value.Denotable
  | .element base _ => base.isNamed = true
  | .unary _ operand => operand.isBinary = false
  | .binary left op right => FitsLeft op left ∧ FitsRight op right
  | _ => True

/-- The trees that can be written down: literals are values of literal tokens, keys stand behind
names only, signs in front of single operands, and operators bind as tightly as the nesting has
it. -/
def WellFormed (e : Expr) : Prop := e.All Shaped

/-! ## Operators of a tree against operators of a chain -/

/-- The operator on top, if there is one, has at least the given precedence. -/
def BindsAt (least : Nat) : Expr → Prop
  | .binary _ op _ => least ≤ op.precedence
  | _ => True

/-- The operator on top, if there is one, is not one whose right operand goes on with `next`. -/
def ClosedFor (next : BinaryOp) : Expr → Prop
  | .binary _ op _ => next.precedence < op.rightPrecedence
  | _ => True

theorem fitsLeft_iff {op : BinaryOp} {e : Expr} : FitsLeft op e ↔ e.ClosedFor op := by
  cases e with
  | binary left inner right =>
    have hop := op.isAssignment_iff
    have hinner := inner.isAssignment_iff
    have hpos := op.one_le_precedence
    simp only [FitsLeft, ClosedFor, BinaryOp.rightPrecedence]
    cases ho : op.isAssignment <;> cases hi : inner.isAssignment <;> simp_all <;> omega
  | _ => simp [FitsLeft, ClosedFor]

theorem ClosedFor.bindsAt {next : BinaryOp} {e : Expr} (h : e.ClosedFor next) :
    e.BindsAt next.precedence := by
  cases e with
  | binary left inner right =>
    have hlt : next.precedence < inner.rightPrecedence := h
    have hle := inner.rightPrecedence_le
    exact Nat.le_of_lt_succ (Nat.lt_of_lt_of_le hlt hle)
  | _ => trivial

theorem fitsRight_iff {op : BinaryOp} {e : Expr} :
    FitsRight op e ↔ e.BindsAt op.rightPrecedence := by
  cases e with
  | binary left inner right =>
    simp only [FitsRight, BindsAt, BinaryOp.rightPrecedence]
    cases op.isAssignment with
    | false =>
      simp only [Bool.false_eq_true, and_false, or_false, if_false]
      exact Nat.succ_le_iff.symm
    | true =>
      simp only [and_true, if_true]
      exact Nat.le_iff_lt_or_eq.symm
  | _ => simp [FitsRight, BindsAt]

theorem bindsAt_zero (e : Expr) : e.BindsAt 0 := by
  cases e with
  | binary => exact Nat.zero_le _
  | _ => trivial

theorem bindsAt_of_not_binary {least : Nat} {e : Expr} (h : e.isBinary = false) :
    e.BindsAt least := by
  cases e with
  | binary => cases h
  | _ => trivial

theorem closedFor_of_not_binary {next : BinaryOp} {e : Expr} (h : e.isBinary = false) :
    e.ClosedFor next := by
  cases e with
  | binary => cases h
  | _ => trivial

theorem wellFormed_binary_iff {left right : Expr} {op : BinaryOp} :
    (binary left op right).WellFormed ↔
      (FitsLeft op left ∧ FitsRight op right) ∧ left.WellFormed ∧ right.WellFormed := all_binary_iff

/-! ## Chains -/

/-- The first operand of the chain that a tree is written as. -/
def first : Expr → Expr
  | .binary left _ _ => first left
  | e => e

/-- The operators of that chain, with their right operands. -/
def links : Expr → Links
  | .binary left op right => links left ++ (op, first right) :: links right
  | _ => []

theorem first_of_not_binary {e : Expr} (h : e.isBinary = false) : e.first = e := by
  cases e with
  | binary => cases h
  | _ => rfl

theorem links_of_not_binary {e : Expr} (h : e.isBinary = false) : e.links = [] := by
  cases e with
  | binary => cases h
  | _ => rfl

variable {bound bound' least : Nat} {left : Expr} {chain rest : Links}

/-- A bound that is large enough makes no difference. -/
theorem climb_congr (h : chain.length ≤ bound) (h' : chain.length ≤ bound') :
    climb bound least left chain = climb bound' least left chain := by
  induction bound generalizing bound' least left chain with
  | zero =>
    obtain rfl := List.eq_nil_of_length_eq_zero (Nat.le_zero.1 h)
    cases bound' <;> rfl
  | succ bound ih =>
    cases chain with
    | nil => cases bound' <;> rfl
    | cons link chain =>
      obtain ⟨op, right⟩ := link
      obtain ⟨bound', rfl⟩ := Nat.exists_eq_succ_of_ne_zero (Nat.ne_zero_of_lt h')
      have hb : chain.length ≤ bound := Nat.le_of_succ_le_succ h
      have hb' : chain.length ≤ bound' := Nat.le_of_succ_le_succ h'
      rw [climb, climb]
      split
      · rfl
      · have hrest := (climb_stops op.rightPrecedence right hb').1
        rw [ih hb hb']
        exact ih (hrest.trans hb) (hrest.trans hb')

/-- One operator of a chain is taken with the right operand that it reaches. -/
theorem climb_cons {op : BinaryOp} {right : Expr} (h : chain.length < bound)
    (hop : least ≤ op.precedence) :
    climb bound least left ((op, right) :: chain) =
      climb bound least (.binary left op (climb bound op.rightPrecedence right chain).1)
        (climb bound op.rightPrecedence right chain).2 := by
  obtain ⟨bound, rfl⟩ := Nat.exists_eq_succ_of_ne_zero (Nat.ne_zero_of_lt h)
  have hb : chain.length ≤ bound := Nat.le_of_lt_succ h
  have hrest := (climb_stops op.rightPrecedence right hb).1
  rw [climb, if_neg (Nat.not_lt.2 hop), climb_congr hb (Nat.le_succ_of_le hb)]
  refine climb_congr ?_ ?_
  · rw [climb_congr (Nat.le_succ_of_le hb) hb]
    exact hrest.trans hb
  · rw [climb_congr (Nat.le_succ_of_le hb) hb]
    exact hrest.trans (Nat.le_succ_of_le hb)

/-- An operator that binds less tightly than asked ends the climb. -/
theorem climb_of_lt (h : ∀ link ∈ chain.head?, link.1.precedence < least) :
    climb bound least left chain = (left, chain) := by
  cases bound with
  | zero => rfl
  | succ bound =>
    cases chain with
    | nil => rfl
    | cons link chain =>
      rw [climb]
      exact if_pos (h link rfl)

/-- Climbing along the chain of a tree rebuilds the tree, if what follows does not belong into
it. -/
theorem climb_first {e : Expr} (he : e.WellFormed) (hbound : (e.links ++ rest).length ≤ bound)
    (hleast : e.BindsAt least) (hrest : ∀ link ∈ rest.head?, e.ClosedFor link.1) :
    climb bound least e.first (e.links ++ rest) = climb bound least e rest := by
  induction e using Expr.induct generalizing least rest with
  | binary left op right ihl ihr =>
    obtain ⟨⟨hleft, hright⟩, hwl, hwr⟩ := wellFormed_binary_iff.1 he
    have hcl := fitsLeft_iff.1 hleft
    have hbr := fitsRight_iff.1 hright
    have hop : least ≤ op.precedence := hleast
    rw [links, List.append_assoc, List.length_append, List.cons_append, List.length_cons] at hbound
    have hlinks : (right.links ++ rest).length < bound := by omega
    -- The operator on the right spine of the right operand, too, is closed for what follows.
    have hspine : ∀ link ∈ rest.head?, right.ClosedFor link.1 := by
      intro link hlink
      have hclosed : link.1.precedence < op.rightPrecedence := hrest link hlink
      cases right with
      | binary _ inner _ =>
        have hle : op.rightPrecedence ≤ inner.precedence := hbr
        exact Nat.lt_of_lt_of_le hclosed (hle.trans inner.le_rightPrecedence)
      | _ => trivial
    calc
      climb bound least (first left) ((left.links ++ (op, right.first) :: right.links) ++ rest) =
        climb bound least (first left)
          (left.links ++ ((op, right.first) :: (right.links ++ rest))) := by
          rw [List.append_assoc, List.cons_append]
      _ = climb bound least left ((op, right.first) :: (right.links ++ rest)) := by
          refine ihl hwl (by rw [List.length_append, List.length_cons]; omega) ?_ ?_
          · cases left with
            | binary _ inner _ => exact hop.trans hcl.bindsAt
            | _ => trivial
          · intro link hlink
            obtain rfl : (op, right.first) = link := by simpa using hlink
            exact hcl
      _ = climb bound least (.binary left op right) rest := by
          rw [climb_cons hlinks hop, ihr hwr hlinks.le hbr hspine, climb_of_lt hrest]
  | _ => rfl

/-- **The tree of a chain.** A well-formed tree is the tree of the chain that it is written as. -/
theorem ofChain_links {e : Expr} (he : e.WellFormed) : ofChain e.first e.links = e := by
  have hnone : ∀ link ∈ ([] : Links).head?, e.ClosedFor link.1 := fun link hlink => by cases hlink
  have hclimb := climb_first he (Nat.le_refl _) e.bindsAt_zero hnone
  rw [List.append_nil] at hclimb
  rw [ofChain, hclimb, climb_of_lt fun link hlink => by cases hlink]

/-! ## Trees of well-formed operands -/

/-- Climbing keeps trees well-formed. The tree so far must be one that the next operator may have on
its left. -/
theorem wellFormed_climb (hbound : chain.length ≤ bound) (hleft : left.WellFormed)
    (hoperands : ∀ link ∈ chain, link.2.WellFormed ∧ link.2.isBinary = false)
    (hclosed : ∀ link ∈ chain.head?, left.ClosedFor link.1) (hleast : left.BindsAt least) :
    (climb bound least left chain).1.WellFormed ∧ (climb bound least left chain).1.BindsAt least ∧
      (climb bound least left chain).2 <:+ chain := by
  induction bound generalizing least left chain with
  | zero => exact ⟨hleft, hleast, List.suffix_refl _⟩
  | succ bound ih =>
    cases chain with
    | nil => exact ⟨hleft, hleast, List.suffix_refl _⟩
    | cons link chain =>
      obtain ⟨op, right⟩ := link
      have hlength : chain.length ≤ bound := Nat.le_of_succ_le_succ hbound
      obtain ⟨⟨hright, hsingle⟩, hothers⟩ := List.forall_mem_cons.1 hoperands
      rw [climb]
      split
      · exact ⟨hleft, hleast, List.suffix_refl _⟩
      · rename_i hop
        -- The right operand is climbed first; the next operator is one that it does not go on with.
        obtain ⟨hwf, hbinds, hsuffix⟩ := ih hlength hright hothers
          (fun _ _ => closedFor_of_not_binary hsingle)
          (bindsAt_of_not_binary hsingle : right.BindsAt op.rightPrecedence)
        have hstops := (climb_stops op.rightPrecedence right hlength).2
        have hnode : (binary left op (climb bound op.rightPrecedence right chain).1).WellFormed :=
          wellFormed_binary_iff.2 ⟨⟨fitsLeft_iff.2 (hclosed _ rfl), fitsRight_iff.2 hbinds⟩,
            hleft, hwf⟩
        have hleast :
            (binary left op (climb bound op.rightPrecedence right chain).1).BindsAt least :=
          Nat.le_of_not_lt hop
        obtain ⟨htree, hleast', hrest⟩ := ih (hsuffix.length_le.trans hlength) hnode
          (fun link hlink => hothers link (hsuffix.mem hlink)) hstops hleast
        exact ⟨htree, hleast', (hrest.trans hsuffix).trans (List.suffix_cons _ _)⟩

/-- **The chain of a tree.** The tree of a chain of well-formed operands is well-formed. -/
theorem wellFormed_ofChain (hleft : left.WellFormed) (hsingle : left.isBinary = false)
    (hoperands : ∀ link ∈ chain, link.2.WellFormed ∧ link.2.isBinary = false) :
    (ofChain left chain).WellFormed :=
  (wellFormed_climb (Nat.le_refl _) hleft hoperands (fun _ _ => closedFor_of_not_binary hsingle)
    (bindsAt_of_not_binary hsingle)).1

/-- A tree is written as its chain. -/
theorem yield_eq_links (e : Expr) : e.yield = e.first.yield ++ yieldLinks e.links := by
  induction e using Expr.induct with
  | binary left op right ihl ihr =>
    rw [yield, first, links, ihl, ihr]
    simp [yieldLinks]
  | _ => exact (List.append_nil _).symm

end Expr

end LineScript
