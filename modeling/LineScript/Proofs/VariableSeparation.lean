import LineScript.Proofs.Code.Growth

/-!
# Variables are kept apart

An identifier hands out the register of its variable, and a store into a container writes the
register of the container in place. What keeps one variable out of reach of stores into another is
the choice of registers: an assignment copies, and the container of an element that is no variable
is a copy as well. `expr_grows` has said which registers the code of an expression may write at all.
Here that is read as a statement about runs.

`Leaves` is about a stretch of code and says nothing about how the run came there: the registers are
arbitrary, the run may enter anywhere and stop anywhere, and it may fail.
-/

set_option autoImplicit false

namespace LineScript

open State Emit Lowering

/-! ## Assigned variables -/

namespace Expr

/-- The variables at the roots of the targets of all assignments in an expression. -/
def assigned (e : Expr) : List String :=
  e.nodes.filterMap fun
    | .binary target op _ => if op.isAssignment then target.root? else none
    | _ => none

theorem assignsOnly_assigned (e : Expr) : e.AssignsOnly (· ∈ e.assigned) := by
  rintro n hn target op value rfl hop x hx
  refine List.mem_filterMap.2 ⟨_, hn, ?_⟩
  exact (if_pos hop).trans hx

end Expr

/-! ## Stretches of code -/

namespace State

variable {code piece : List Instruction} {start stop : Nat} {r : Register} {s t : State}

/-- The code between two indexes leaves a register as it is. Wherever a run has entered it and
wherever it has come to, the register holds what it held at the entry; also if the run fails
there. -/
def Leaves (code : List Instruction) (start stop : Nat) (r : Register) : Prop :=
  ∀ s t, start ≤ s.next → Reaches code s t → t.next ≤ stop →
    t.registers.get? r = s.registers.get? r ∧
    ∀ i u fault, t.next < stop → code[t.next]? = some i → t.advance.execute i = (u, some fault) →
      u.registers.get? r = s.registers.get? r

/-- A run through a piece keeps a register that no instruction of the piece names as its
destination. -/
theorem Reaches.get?_of_dests (hf : Forward code) (hp : Placed code start piece)
    (hd : ∀ i ∈ piece, i.dest? ≠ some r) (hs : start ≤ s.next) (h : Reaches code s t)
    (ht : t.next ≤ start + piece.length) : t.registers.get? r = s.registers.get? r := by
  -- On the steps, from the end: forward code has not left the piece before.
  induction h with
  | refl => rfl
  | @tail u t hsu hut ih =>
    have hlt : u.next < t.next := hut.lt hf
    have hle : s.next ≤ u.next := Reaches.le hf hsu
    obtain ⟨i, hi, hget⟩ := hp.mem (u := u.next) (by omega) (by omega)
    rw [hut.get?_of_ne_dest hget (hd i hi)]
    exact ih (by omega)

theorem leaves_of_dests (hf : Forward code) (hp : Placed code start piece)
    (hd : ∀ i ∈ piece, i.dest? ≠ some r) : Leaves code start (start + piece.length) r := by
  intro s t hs h ht
  have hkept : t.registers.get? r = s.registers.get? r := h.get?_of_dests hf hp hd hs ht
  refine ⟨hkept, fun i u fault _ _ hu => ?_⟩
  rw [registers_of_fault hu, advance_registers]
  exact hkept

end State

/-! ## Statements -/

namespace Lowering

variable {start : Nat} {scope : Scope}

/-- The code of an expression does not write the register of a variable that the expression does not
assign. -/
theorem dest_ne_of_not_assigned {e : Expr} {block : Emitted Operand} {x : String} {b : Operand}
    (hwf : scope.WF) (h : expr e start scope = .ok block) (hb : scope.find? x = some b)
    (hx : x ∉ e.assigned) : ∀ i ∈ block.code, i.dest? ≠ some b.register := by
  intro i hi hdest
  obtain ⟨hgrown, _⟩ := expr_grown e.assignsOnly_assigned hwf h
  rcases (hgrown.dests i hi _ hdest).2 with hissued | ⟨y, c, hy, hc, hreg⟩
  · exact absurd (hwf.lt hb) (Nat.not_lt.2 hissued)
  · exact hx (hwf.apart hb hc hreg.symm ▸ hy)

theorem find?_of_assign {name : String} {value : Operand} {a : Emitted Unit}
    (h : assign name value start scope = .ok a) : ∃ o, a.scope.find? name = some o := by
  -- The last thing an assignment does is to bind the name.
  obtain ⟨_, _, _, hrest, rfl⟩ := bind_eq_ok h
  obtain ⟨_, _, _, hcopy, rfl⟩ := bind_eq_ok hrest
  obtain ⟨_, _, _, hbind, rfl⟩ := bind_eq_ok hcopy
  cases hbind
  exact ⟨_, (Scope.find?_bind _ _ _ _).trans (if_pos rfl)⟩

/-- Behind `y = x` both variables are bound. -/
theorem bound_of_copy {x y : String} {a : Emitted Operand} (hwf : scope.WF)
    (h : expr (.binary (.ident y) .assign (.ident x)) start scope = .ok a) :
    (∃ o, a.scope.find? x = some o) ∧ ∃ o, a.scope.find? y = some o := by
  have hsince := (expr_grown (Expr.assignsOnly_true _) hwf h).1.since
  rw [expr, isTarget, if_pos rfl] at h
  obtain ⟨value, _, hvalue, hrest, rfl⟩ := bind_eq_ok h
  obtain ⟨stored, _, hstored, hpure, rfl⟩ := bind_eq_ok hrest
  obtain rfl := Except.ok.inj hpure
  constructor
  · -- Without a register of its own, `x` could not have been read.
    obtain ⟨hx, _⟩ := (ident_grows (A := fun _ => True) (.refl hwf) value hvalue).2
    obtain ⟨o, ho, _⟩ := hsince.keeps hx
    exact ⟨o, ho⟩
  · rw [store] at hstored
    exact find?_of_assign hstored

theorem bound_of_mem {x y : String} {span : Span} {earlier : Program} {before : Emitted Unit}
    (h : statements 0 .empty earlier = .ok before)
    (hmem : ⟨.binary (.ident y) .assign (.ident x), span⟩ ∈ earlier) :
    (∃ o, before.scope.find? x = some o) ∧ ∃ o, before.scope.find? y = some o := by
  obtain ⟨first, rest, rfl⟩ := List.append_of_mem hmem
  obtain ⟨done, others, hdone, hothers, rfl⟩ := statements_append h
  obtain ⟨copy, later, hcopy, hlater, rfl⟩ := statements_cons hothers
  have hwf : done.scope.WF := (statements_grown (.refl Scope.empty_wf) hdone).since.wf
  have hafter : copy.scope.WF := (expr_grown (Expr.assignsOnly_true _) hwf hcopy).1.since.wf
  have hsince := (statements_grown (.refl hafter) hlater).since
  obtain ⟨⟨c, hc⟩, d, hd⟩ := bound_of_copy hwf hcopy
  obtain ⟨c', hc', _⟩ := hsince.keeps hc
  obtain ⟨d', hd', _⟩ := hsince.keeps hd
  exact ⟨⟨c', hc'⟩, d', hd'⟩

/-- The code of a program around the code of one of its statements. -/
theorem code_of_statement {earlier later : Program} {st : Statement} {routine : Routine}
    (h : Program.lower (earlier ++ st :: later) = .ok routine) :
    ∃ before block rest, statements 0 .empty earlier = .ok before ∧
      expr st.expr before.code.length before.scope = .ok block ∧
      routine.code = before.code ++ block.code ++ rest := by
  obtain ⟨all, hall, rfl⟩ := statements_of_lower h
  obtain ⟨before, others, hbefore, hothers, rfl⟩ := statements_append hall
  obtain ⟨block, rest, hblock, _, rfl⟩ := statements_cons hothers
  rw [Nat.zero_add] at hblock
  exact ⟨before, block, rest.code, hbefore, hblock, (List.append_assoc _ _ _).symm⟩

end Lowering

namespace Program

/-- **No aliasing.** The code of a statement leaves the register of every variable that was bound
before as it is, unless the variable is the root of a target that the statement assigns to. In
particular, behind `y = x` a statement that stores only through `y` leaves `x` as it is, and one
that stores only through `x` leaves `y`. -/
theorem statement_leaves_unassigned (p earlier later : Program) (st : Statement) (routine : Routine)
    (hlower : p.lower = .ok routine) (hp : p = earlier ++ st :: later) :
    ∃ before block rest, statements 0 .empty earlier = .ok before ∧
      expr st.expr before.code.length before.scope = .ok block ∧
      routine.code = before.code ++ block.code ++ rest ∧
      (∀ x b, before.scope.find? x = some b → x ∉ st.expr.assigned →
        Leaves routine.code before.code.length
          (before.code.length + block.code.length) b.register) ∧
      ∀ x y span, x ≠ y → ⟨.binary (.ident y) .assign (.ident x), span⟩ ∈ earlier →
        ∃ b c, before.scope.find? x = some b ∧
          before.scope.find? y = some c ∧ b.register ≠ c.register ∧
          ((∀ z ∈ st.expr.assigned, z = y) →
            Leaves routine.code before.code.length
              (before.code.length + block.code.length) b.register) ∧
          ((∀ z ∈ st.expr.assigned, z = x) →
            Leaves routine.code before.code.length (before.code.length + block.code.length)
              c.register) := by
  subst hp
  obtain ⟨before, block, rest, hbefore, hblock, hcode⟩ := code_of_statement hlower
  have hwf : before.scope.WF := (statements_grown (.refl Scope.empty_wf) hbefore).since.wf
  have hplaced : Placed routine.code before.code.length block.code := by
    have hall : Placed routine.code 0 (before.code ++ block.code ++ rest) := by
      intro k i hk
      rwa [Nat.zero_add, hcode]
    have hbehind := hall.left.right
    rwa [Nat.zero_add] at hbehind
  have hkeeps : ∀ x b, before.scope.find? x = some b → x ∉ st.expr.assigned →
      Leaves routine.code before.code.length (before.code.length + block.code.length)
        b.register := by
    intro x b hb hx
    exact leaves_of_dests (lower_forward hlower) hplaced (dest_ne_of_not_assigned hwf hblock hb hx)
  refine ⟨before, block, rest, hbefore, hblock, hcode, hkeeps, fun x y span hne hmem => ?_⟩
  obtain ⟨⟨b, hb⟩, c, hc⟩ := bound_of_mem hbefore hmem
  refine ⟨b, c, hb, hc, fun hreg => hne (hwf.apart hb hc hreg), fun honly => ?_, fun honly => ?_⟩
  · exact hkeeps x b hb fun hx => hne (honly x hx)
  · exact hkeeps y c hc fun hy => hne (honly y hy).symm

/-- `a = [1]`, `b = a` -/
def copiedArray : Program :=
  [⟨.binary (.ident "a") .assign (.array [.literal (.number ⟨1, 0⟩)]), default⟩,
    ⟨.binary (.ident "b") .assign (.ident "a"), default⟩]

/-- `b[0] = 2` -/
def storeIntoCopy : Statement :=
  ⟨.binary (.element (.ident "b") (.literal (.number ⟨0, 0⟩))) .assign
    (.literal (.number ⟨2, 0⟩)), default⟩

/-- The store into `b` leaves the array in the register of `a` alone. -/
theorem statement_leaves_unassigned_copiedArray : ∃ routine before block rest,
    Program.lower (copiedArray ++ [storeIntoCopy]) = .ok routine ∧
    statements 0 .empty copiedArray = .ok before ∧
    expr storeIntoCopy.expr before.code.length before.scope = .ok block ∧
    routine.code = before.code ++ block.code ++ rest ∧
    (∃ b, before.scope.find? "a" = some b ∧ b.register = 2) ∧
    Leaves routine.code before.code.length (before.code.length + block.code.length) 2 := by
  have hlower : Program.lower (copiedArray ++ [storeIntoCopy]) = .ok ⟨[.load (.number ⟨1, 0⟩) 0,
      .makeArray .number [0] 1, .copy 1 2, .copy 2 3, .load (.number ⟨2, 0⟩) 4,
      .load (.number ⟨0, 0⟩) 5, .setItem 3 5 4], 6⟩ := by
    cbv
  obtain ⟨before, block, rest, hbefore, hblock, hcode, _, hcopies⟩ :=
    statement_leaves_unassigned _ copiedArray [] storeIntoCopy _ hlower rfl
  have hname : "a" ≠ "b" := by decide
  obtain ⟨b, c, hb, _, _, hleaves, _⟩ :=
    hcopies "a" "b" default hname (List.mem_cons_of_mem _ List.mem_cons_self)
  have hreg : b.register = 2 := by
    have hscope : statements 0 .empty copiedArray = .ok ⟨(),
        [.load (.number ⟨1, 0⟩) 0, .makeArray .number [0] 1, .copy 1 2, .copy 2 3],
        ⟨4, [("b", ⟨3, some (.array .number)⟩), ("a", ⟨2, some (.array .number)⟩)]⟩⟩ := by
      cbv
    obtain rfl := Except.ok.inj (hbefore.symm.trans hscope)
    obtain rfl := Option.some.inj hb
    rfl
  have honly : ∀ z ∈ storeIntoCopy.expr.assigned, z = "b" := by decide
  exact ⟨_, before, block, rest, hlower, hbefore, hblock, hcode, ⟨b, hb, hreg⟩,
    hreg ▸ hleaves honly⟩

end Program

end LineScript
