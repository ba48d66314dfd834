import LineScript.Expr.Basic

/-!
# Parts of an expression

`Expr.nodes` lists an expression with everything below it. The classes of programs that later
statements are about are all of the form "every node is such and such" (`Expr.All`): no assignments,
literals that are scalars, no calls of `print`. What an expression assigns and which variable it
stands for are read off its nodes as well.

`Expr.induct` is the induction that all proofs about expressions use. It gives the hypothesis for
every member of a list, so a proof never has to be mutual.
-/

set_option autoImplicit false

namespace LineScript

/-- Not an array or a map. -/
def Value.isScalar : Value → Bool
  | .array .. => false
  | .map .. => false
  | _ => true

namespace Expr

/-- Induction over expressions, with the hypothesis for each item, entry and argument. -/
@[elab_as_elim]
theorem induct {P : Expr → Prop} (literal : ∀ v, P (.literal v)) (ident : ∀ name, P (.ident name))
    (element : ∀ base key, P base → P key → P (.element base key))
    (array : ∀ items, (∀ e ∈ items, P e) → P (.array items))
    (map : ∀ entries, (∀ p ∈ entries, P p.1 ∧ P p.2) → P (.map entries))
    (call : ∀ name args, (∀ e ∈ args, P e) → P (.call name args))
    (group : ∀ inner, P inner → P (.group inner))
    (unary : ∀ op operand, P operand → P (.unary op operand))
    (binary : ∀ left op right, P left → P right → P (.binary left op right)) (e : Expr) : P e := by
  refine @Expr.rec P (fun es => ∀ e ∈ es, P e) (fun ps => ∀ p ∈ ps, P p.1 ∧ P p.2)
    (fun p => P p.1 ∧ P p.2)
    literal ident element array map call group unary binary ?_ ?_ ?_ ?_ ?_ e
  · intro e he
    cases he
  · intro head tail hhead htail e he
    rcases List.mem_cons.1 he with rfl | he
    · exact hhead
    · exact htail e he
  · intro p hp
    cases hp
  · intro head tail hhead htail p hp
    rcases List.mem_cons.1 hp with rfl | hp
    · exact hhead
    · exact htail p hp
  · intro key value hkey hvalue
    exact ⟨hkey, hvalue⟩

/-! ## Nodes -/

mutual

/-- Everything below an expression. -/
def parts : Expr → List Expr
  | .literal _ => []
  | .ident _ => []
  | .element base key => base :: parts base ++ key :: parts key
  | .array items => nodesOf items
  | .map entries => nodesOfPairs entries
  | .call _ args => nodesOf args
  | .group inner => inner :: parts inner
  | .unary _ operand => operand :: parts operand
  | .binary left _ right => left :: parts left ++ right :: parts right

/-- Expressions with everything below them. -/
def nodesOf : List Expr → List Expr
  | [] => []
  | e :: rest => e :: parts e ++ nodesOf rest

/-- Keys and values with everything below them. -/
def nodesOfPairs : List (Expr × Expr) → List Expr
  | [] => []
  | (key, value) :: rest => key :: parts key ++ (value :: parts value ++ nodesOfPairs rest)

end

/-- An expression with everything below it. -/
def nodes (e : Expr) : List Expr := e :: parts e

/-- The nodes below a list are the nodes of its members. -/
theorem mem_nodesOf {n : Expr} {es : List Expr} : n ∈ nodesOf es ↔ ∃ e ∈ es, n ∈ e.nodes := by
  induction es with
  | nil => simp [nodesOf]
  | cons e rest ih => simp [nodesOf, nodes, ih, or_assoc]

theorem mem_nodesOfPairs {n : Expr} {ps : List (Expr × Expr)} :
    n ∈ nodesOfPairs ps ↔ ∃ p ∈ ps, n ∈ p.1.nodes ∨ n ∈ p.2.nodes := by
  induction ps with
  | nil => simp [nodesOfPairs]
  | cons p rest ih =>
    obtain ⟨key, value⟩ := p
    simp [nodesOfPairs, nodes, ih, or_assoc]

/-- Every node is such and such. -/
def All (p : Expr → Prop) (e : Expr) : Prop := ∀ n ∈ e.nodes, p n

section All

variable {p : Expr → Prop}

/-- A property of all nodes is one of the root and of the nodes below it. From this there is one
equivalence for each constructor. -/
theorem all_iff {e : Expr} : All p e ↔ p e ∧ ∀ n ∈ e.parts, p n := List.forall_mem_cons

theorem All.self {e : Expr} (h : All p e) : p e := (all_iff.1 h).1

theorem forall_nodesOf_iff {es : List Expr} : (∀ n ∈ nodesOf es, p n) ↔ ∀ e ∈ es, All p e := by
  constructor
  · intro h e he n hn
    exact h n (mem_nodesOf.2 ⟨e, he, hn⟩)
  · intro h n hn
    obtain ⟨e, he, hn⟩ := mem_nodesOf.1 hn
    exact h e he n hn

theorem forall_nodesOfPairs_iff {ps : List (Expr × Expr)} :
    (∀ n ∈ nodesOfPairs ps, p n) ↔ ∀ q ∈ ps, All p q.1 ∧ All p q.2 := by
  constructor
  · intro h q hq
    refine ⟨fun n hn => ?_, fun n hn => ?_⟩
    · exact h n (mem_nodesOfPairs.2 ⟨q, hq, Or.inl hn⟩)
    · exact h n (mem_nodesOfPairs.2 ⟨q, hq, Or.inr hn⟩)
  · intro h n hn
    obtain ⟨q, hq, hn | hn⟩ := mem_nodesOfPairs.1 hn
    · exact (h q hq).1 n hn
    · exact (h q hq).2 n hn

theorem forall_two_iff {a b : Expr} :
    (∀ n ∈ a :: parts a ++ b :: parts b, p n) ↔ All p a ∧ All p b := by
  rw [List.forall_mem_append]
  rfl

theorem all_element_iff {base key : Expr} :
    All p (.element base key) ↔ p (.element base key) ∧ All p base ∧ All p key :=
  all_iff.trans (and_congr_right fun _ => forall_two_iff)

theorem all_array_iff {items : List Expr} :
    All p (.array items) ↔ p (.array items) ∧ ∀ e ∈ items, All p e :=
  all_iff.trans (and_congr_right fun _ => forall_nodesOf_iff)

theorem all_map_iff {entries : List (Expr × Expr)} :
    All p (.map entries) ↔ p (.map entries) ∧ ∀ q ∈ entries, All p q.1 ∧ All p q.2 :=
  all_iff.trans (and_congr_right fun _ => forall_nodesOfPairs_iff)

theorem all_call_iff {name : String} {args : List Expr} :
    All p (.call name args) ↔ p (.call name args) ∧ ∀ e ∈ args, All p e :=
  all_iff.trans (and_congr_right fun _ => forall_nodesOf_iff)

theorem all_group_iff {inner : Expr} :
    All p (.group inner) ↔ p (.group inner) ∧ All p inner := all_iff

theorem all_unary_iff {op : UnaryOp} {operand : Expr} :
    All p (.unary op operand) ↔ p (.unary op operand) ∧ All p operand := all_iff

theorem all_binary_iff {left right : Expr} {op : BinaryOp} :
    All p (.binary left op right) ↔ p (.binary left op right) ∧ All p left ∧ All p right :=
  all_iff.trans (and_congr_right fun _ => forall_two_iff)

end All

/-! ## Classes of expressions -/

def isAssignment : Expr → Bool
  | .binary _ op _ => op.isAssignment
  | _ => false

/-- No assignment anywhere. -/
def AssignmentFree (e : Expr) : Prop := All (fun n => n.isAssignment = false) e

/-- No assignment below the expression; the expression itself may be one. -/
def AssignsAtRoot (e : Expr) : Prop := ∀ n ∈ e.parts, n.isAssignment = false

/-- Each literal is a scalar. -/
def ScalarLiterals (e : Expr) : Prop := All (fun n => ∀ v, n = .literal v → v.isScalar) e

/-- No call of `print` below the expression; the expression itself may be one. -/
def PrintsAtRoot (e : Expr) : Prop := ∀ n ∈ e.parts, ∀ args, n ≠ .call "print" args

/-! ## Variables -/

/-- The variable at the root of an assignment's target. -/
def root? : Expr → Option String
  | .ident name => some name
  | .element base _ => root? base
  | _ => none

/-- The variable that an expression is, looking through parentheses and assignments to their
value. -/
def alias? : Expr → Option String
  | .ident name => some name
  | .group inner => alias? inner
  | .binary _ .assign value => alias? value
  | _ => none

end Expr

end LineScript
