import LineScript.Proofs.Code.Operation
import LineScript.Proofs.Code.Passage

/-!
# The values that operations use

An operation computes its operands one after the other and reads their registers when all of them
are computed. The register of a variable is read like any other, it is not copied when the variable
is computed. So in `x + (x = 2)` both operands are 2, whatever `x` was before.

This is all that can happen (`Program.operands_read`). Of every operation that a run to the end
carries out, the operands hold the values that they held right behind their own code, unless an
operand is a variable and one of the operands behind it assigns this variable. Then it is the value
of the variable by the time of the operation.

`Evaluates` follows a run through the code of operands, and `Uses` says what the operation makes of
their values.
-/

set_option autoImplicit false

namespace LineScript

open State Emit

namespace Lowering

variable {code : List Instruction} {scope mid after : Scope} {s t u final : State}
    {A B : String → Prop}

/-! ## Operands in a run -/

/-- An operand that a run has computed: its register, and what the register held right behind the
code. -/
structure Evaluated where
  operand : Operand
  held : Option Value

/-- A run computes expressions one after the other. -/
inductive Evaluates (code : List Instruction) :
    List Expr → Scope → State → List Evaluated → Scope → State → Prop
  | nil {scope : Scope} {s : State} : Evaluates code [] scope s [] scope s
  | cons {e : Expr} {rest : List Expr} {scope mid after : Scope} {s t u : State} {o : Operand}
      {done : List Evaluated} (he : (expr e).Yields s.next scope o t.next mid)
      (hst : Reaches code s t) (hrest : Evaluates code rest mid t done after u) :
      Evaluates code (e :: rest) scope s (⟨o, t.registers.get? o.register⟩ :: done) after u

/-- Values that are used for operands. An operand that is no variable has the value that it had
right behind its code. An operand that is a variable has the value of the variable, which is also
the value that it had right behind its code if no operand behind it assigns the variable. -/
def Retained (after : Scope) : List Expr → List Evaluated → List Value → Prop
  | [], [], [] => True
  | e :: rest, d :: done, v :: values =>
    (e.alias? = none → d.held = some v) ∧
    (∀ x, e.alias? = some x → (∃ b, after.find? x = some b ∧ b.register = d.operand.register) ∧
      (x ∉ rest.flatMap Expr.assigned → d.held = some v)) ∧
    Retained after rest done values
  | _, _, _ => False

/-- A run to the end that comes to the code of operands computes them. What it finds in their
registers when all are computed are the values that the operation uses. -/
theorem exprs_evaluates {es : List Expr} {a : Emitted (List Operand)} (hwf : scope.WF)
    (h : exprs es s.next scope = .ok a) (hp : Placed code s.next a.code) (hr : Reaches code s final)
    (hend : code[final.next]? = none) :
    ∃ done u, Evaluates code es scope s done a.scope u ∧ done.map Evaluated.operand = a.value ∧
      Reaches code u final ∧ u.next = s.next + a.code.length ∧
      Ran (· ∈ es.flatMap Expr.assigned) scope s a.scope u ∧
      ∀ values : List Value,
        done.map (fun d => u.registers.get? d.operand.register) = values.map some →
        Retained a.scope es done values := by
  -- On the operands: those behind the first one do not write its register, unless they assign the
  -- variable that it is.
  induction es generalizing scope s a with
  | nil =>
    obtain rfl := Except.ok.inj h
    refine ⟨[], s, .nil, rfl, hr, rfl, ⟨.refl hwf, fun _ => rfl, fun _ => rfl⟩,
      fun values hvalues => ?_⟩
    obtain rfl : values = [] := List.map_eq_nil_iff.1 hvalues.symm
    trivial
  | cons e rest ih =>
    rw [exprs] at h
    obtain ⟨x, y, hx, hy, rfl⟩ := bind_eq_ok h
    obtain ⟨z, w, hz, hw, rfl⟩ := bind_eq_ok hy
    obtain rfl := Except.ok.inj hw
    simp only [List.append_nil] at hp ⊢
    obtain ⟨t, hst, htf, hn, hran, hres⟩ :=
      passes_of_end (expr_through e.assignsOnly_assigned hwf) hx hp.left hr hend
    have hmid := hran.since.wf
    rw [← hn] at hz
    have hbehind := hp.right
    rw [← hn] at hbehind
    obtain ⟨done, u, hdone, hos, huf, hu, hrest, hkept⟩ := ih hmid hz hbehind htf
    refine ⟨⟨x.value, t.registers.get? x.value.register⟩ :: done, u,
      .cons ⟨x.code, hx, hn⟩ hst hdone,
      congrArg _ hos, huf, by rw [hu, hn, List.length_append, Nat.add_assoc], ?_, ?_⟩
    · rw [List.flatMap_cons]
      exact (hran.mono fun y hy => List.mem_append_left _ hy).trans
        (hrest.mono fun y hy => List.mem_append_right _ hy)
    · intro values hvalues
      cases values with
      | nil => cases hvalues
      | cons v values =>
        obtain ⟨hv, hvs⟩ := List.cons.inj hvalues
        have hheld : (∀ y, e.alias? = some y → y ∉ rest.flatMap Expr.assigned) →
            t.registers.get? x.value.register = some v :=
          fun hnot => (hrest.kept (hres.not_owns hmid hnot)).symm.trans hv
        refine ⟨fun hnone => hheld fun y hy => ?_,
          fun y hy => ⟨?_, fun hnot => hheld fun y' hy' => ?_⟩, hkept _ hvs⟩
        · rw [hnone] at hy
          cases hy
        · exact (hres.since hrest.since).named hy
        · exact Option.some.inj (hy.symm.trans hy') ▸ hnot

/-- A run computes the operands of an operation, finds values in their registers when all are
computed, and carries the operation out with these values. -/
def CarriesOut (code : List Instruction) (e : Expr) (scope : Scope) (s : State)
    (done : List Evaluated) (after : Scope) (values : List Value) : Prop :=
  ∃ u o stop last t, Evaluates code e.inputs scope s done after u ∧
    (operate e (done.map Evaluated.operand)).Yields u.next after o stop last ∧
    Reaches code u t ∧ t.next = stop ∧ Uses u t o.register e values ∧
    done.map (fun d => u.registers.get? d.operand.register) = values.map some

/-! ## Operations have sites -/

variable {p : Program} {routine : Routine} {task : Task} {n : Nat} {e m : Expr}

theorem Site.of_mem_operands (hlower : p.lower = .ok routine) (h : Site p task n scope)
    (he : e ∈ task.operands) : ∃ stop after, Site p (.value e) stop after := by
  obtain ⟨a, ha, _⟩ := (h.stands hlower).placed
  obtain ⟨x, _, hx, _, _⟩ := bind_eq_ok (Task.factors ha)
  obtain ⟨earlier, later, hops⟩ := List.append_of_mem he
  obtain ⟨b, _, _, hb, _⟩ := exprs_around (hops ▸ hx)
  exact ⟨_, _, h.operand hops ⟨b.code, hb, rfl⟩⟩

/-- What lies below an expression lies in one of its operands, or on the right of `and` or `or`, or
in the target of an assignment. -/
theorem mem_parts (h : m ∈ e.parts) :
    (∃ x ∈ e.operands, m ∈ x.nodes) ∨
    (∃ left op right, e = .binary left op right ∧ (op = .and ∨ op = .or) ∧ m ∈ right.nodes) ∨
    ∃ target value, e = .binary target .assign value ∧ m ∈ target.nodes := by
  cases e with
  | literal v => cases h
  | ident name => cases h
  | array items => exact Or.inl (Expr.mem_nodesOf.1 h)
  | call name args => exact Or.inl (Expr.mem_nodesOf.1 h)
  | map entries =>
    obtain ⟨q, hq, hm⟩ := Expr.mem_nodesOfPairs.1 h
    rcases hm with hm | hm
    · exact Or.inl ⟨q.1, List.mem_flatMap.2 ⟨q, hq, by simp⟩, hm⟩
    · exact Or.inl ⟨q.2, List.mem_flatMap.2 ⟨q, hq, by simp⟩, hm⟩
  | group inner => exact Or.inl ⟨inner, List.mem_singleton_self _, h⟩
  | unary op operand => exact Or.inl ⟨operand, List.mem_singleton_self _, h⟩
  | element base key =>
    rcases List.mem_append.1 h with hm | hm
    · exact Or.inl ⟨base, by simp [Expr.operands], hm⟩
    · exact Or.inl ⟨key, by simp [Expr.operands], hm⟩
  | binary left op right =>
    rcases List.mem_append.1 h with hm | hm
    · cases op with
      | assign => exact Or.inr (Or.inr ⟨left, right, rfl, hm⟩)
      | _ => exact Or.inl ⟨left, by simp [Expr.operands], hm⟩
    · cases op with
      | and => exact Or.inr (Or.inl ⟨left, .and, right, rfl, Or.inl rfl, hm⟩)
      | or => exact Or.inr (Or.inl ⟨left, .or, right, rfl, Or.inr rfl, hm⟩)
      | _ => exact Or.inl ⟨right, by simp [Expr.operands], hm⟩

/-- The code of an operation is put somewhere, wherever the operation lies in what stands at a
site. -/
theorem Site.of_operation (hlower : p.lower = .ok routine) (h : Site p task n scope)
    (hsubject : task.subject = e) (hm : m ∈ e.nodes) (hop : m.isOperation = true) :
    ∃ stop after, Site p (.value m) stop after := by
  -- On the expression. It is computed, or it is a target; a target is no operation, and its
  -- operands are computed.
  induction e using Expr.inductOperands generalizing task n scope with
  | step e ih ihb =>
    cases task with
    | value x =>
      obtain rfl : x = e := hsubject
      rcases List.mem_cons.1 hm with rfl | hm
      · exact ⟨n, scope, h⟩
      · obtain ⟨a, ha, _⟩ := h.placed_expr hlower
        rcases mem_parts hm with
          ⟨y, hy, hin⟩ | ⟨left, op, right, rfl, hlogic, hin⟩ | ⟨target, value, rfl, hin⟩
        · obtain ⟨stop, after, hsite⟩ := h.of_mem_operands hlower hy
          exact ih y hy hsite rfl hin
        · obtain ⟨b, _, hb, _⟩ := bind_eq_ok (expr_factors ha)
          have hleft : (Expr.binary left op right).operands = [left] := by
            rcases hlogic with rfl | rfl <;> rfl
          rw [hleft, exprs] at hb
          obtain ⟨l, _, hl, _⟩ := bind_eq_ok hb
          exact (ihb left op right rfl).2 (h.right hlogic ⟨l.code, hl, rfl⟩) rfl hin
        · obtain ⟨v, _, hv, _⟩ := assign_factors ha
          exact (ihb target .assign value rfl).1 (h.assign ⟨v.code, hv, rfl⟩) rfl hin
    | store target v =>
      obtain rfl : target = e := hsubject
      cases target with
      | element base key =>
        rcases List.mem_cons.1 hm with rfl | hm
        · cases hop
        · rcases List.mem_append.1 hm with hm | hm
          · obtain ⟨stop, after, hsite⟩ :=
              h.of_mem_operands hlower (e := base) (by simp [Task.operands])
            exact ih base (by simp [Expr.operands]) hsite rfl hm
          · obtain ⟨stop, after, hsite⟩ :=
              h.of_mem_operands hlower (e := key) (by simp [Task.operands])
            exact ih key (by simp [Expr.operands]) hsite rfl hm
      | ident name =>
        obtain rfl := List.mem_singleton.1 hm
        cases hop
      | _ =>
        -- Nothing else can be stored into.
        obtain ⟨a, ha, _⟩ := (h.stands hlower).placed
        rw [Task.lower, store] at ha
        · cases ha
        all_goals simp

end Lowering

namespace Program

open Lowering

/-- **The values of operands.** Every operation of a program that lowers is computed somewhere.
Wherever a run that ends without an error comes to its code, it computes the operands one after the
other and then carries out the operation. The values that are used are those that the operands had
right behind their own code, but for variables that a later operand assigns. -/
theorem operands_read (p : Program) (routine : Routine) (limit : Option Nat) (sink : Sink)
    (registers : Registers) (hlower : p.lower = .ok routine)
    (hrun : (routine.run limit sink).result = .ok registers) :
    ∀ st ∈ p, ∀ e ∈ st.expr.nodes, e.isOperation = true →
      (∃ n scope, Site p (.value e) n scope) ∧
      ∀ scope s, Site p (.value e) s.next scope → Reaches routine.code (routine.start sink) s →
        ∃ done after values, CarriesOut routine.code e scope s done after values ∧
          Retained after e.inputs done values := by
  intro st hst e he hop
  obtain ⟨earlier, later, hp⟩ := List.append_of_mem hst
  constructor
  · obtain ⟨before, _, _, hbefore, _⟩ := code_of_statement (hp ▸ hlower)
    exact Site.of_operation hlower (.statement hp hbefore) rfl he hop
  · intro scope s hsite hs
    obtain ⟨final, hfinal, hend, _⟩ := Routine.run_ok hrun
    obtain ⟨a, ha, hplaced⟩ := hsite.placed_expr hlower
    obtain ⟨b, c, rest, hb, hc, hcode⟩ := operation_factors hop ha
    rw [hcode] at hplaced
    obtain ⟨done, u, hdone, hos, huf, hu, hran, hkept⟩ :=
      exprs_evaluates hsite.wf hb hplaced.left.left (reaches_end hs hfinal hend) hend
    obtain ⟨_, hlt⟩ := exprs_grown (A := fun _ => True) (fun e _ => e.assignsOnly_true) hsite.wf hb
    have hbehind := hplaced.left.right
    rw [← hu] at hc hbehind
    obtain ⟨t, hut, _, ht, values, hvalues, huses⟩ :=
      passes_of_end (operate_uses (s := u) hop (exprs_length hb) hlt) hc hbehind huf hend
    rw [← hos] at hc
    rw [← hos, List.map_map] at hvalues
    exact ⟨done, b.scope, values, ⟨u, c.value, _, c.scope, t, hdone, ⟨c.code, hc, rfl⟩, hut, ht,
      huses, hvalues⟩, hkept values hvalues⟩

/-- `x + (x = 2)` -/
def laterAssigned : Expr :=
  .binary (.ident "x") (.arith .add)
    (.group (.binary (.ident "x") .assign (.literal (.number ⟨2, 0⟩))))

/-- `x = 1`, `y = x + (x = 2)` -/
def readsLate : Program :=
  [⟨.binary (.ident "x") .assign (.literal (.number ⟨1, 0⟩)), default⟩,
    ⟨.binary (.ident "y") .assign laterAssigned, default⟩]

/-- The code of `readsLate`. -/
def readsLateRoutine : Routine :=
  ⟨[.load (.number ⟨1, 0⟩) 0, .copy 0 1, .load (.number ⟨2, 0⟩) 2, .copy 2 1, .arith .add 1 2 3,
    .copy 3 4], 5⟩

theorem readsLate_lower : readsLate.lower = .ok readsLateRoutine := by cbv

/-- The scope behind `x = 1`. -/
def readsLateScope : Scope := ⟨2, [("x", ⟨1, some .number⟩)]⟩

/-- The state behind `x = 1`. -/
def readsLateState : State :=
  (State.runFor readsLateRoutine.code 2 (readsLateRoutine.start (.new none))).1

theorem readsLate_site : Site readsLate (.value laterAssigned) 2 readsLateScope := by
  have hfirst : statements 0 .empty [⟨.binary (.ident "x") .assign (.literal (.number ⟨1, 0⟩)),
      default⟩] = .ok ⟨(), [.load (.number ⟨1, 0⟩) 0, .copy 0 1], readsLateScope⟩ := by cbv
  have hstatement : Site readsLate (.value (.binary (.ident "y") .assign laterAssigned)) 2
      readsLateScope :=
    .statement rfl hfirst
  exact hstatement.first rfl

theorem readsLate_reaches :
    Reaches readsLateRoutine.code (readsLateRoutine.start (.new none)) readsLateState := by
  have hrun : State.runFor readsLateRoutine.code 2 (readsLateRoutine.start (.new none)) =
      (readsLateState, .stopped) :=
    rfl
  exact State.runFor_spec hrun

/-- The run of `readsLate` ends without an error, so the values of the sum are known. -/
theorem operands_read_readsLate :
    ∃ registers, readsLate.lower = .ok readsLateRoutine ∧
      (readsLateRoutine.run none (.new none)).result = .ok registers ∧
      Site readsLate (.value laterAssigned) readsLateState.next readsLateScope ∧
      Reaches readsLateRoutine.code (readsLateRoutine.start (.new none)) readsLateState ∧
      ∃ done after values,
        CarriesOut readsLateRoutine.code laterAssigned readsLateScope readsLateState done after
          values ∧ Retained after laterAssigned.inputs done values := by
  have hread := operands_read readsLate readsLateRoutine none (.new none) _ readsLate_lower rfl
    ⟨.binary (.ident "y") .assign laterAssigned, default⟩ (by simp [readsLate]) laterAssigned
    (by simp [Expr.nodes, Expr.parts]) rfl
  exact ⟨_, readsLate_lower, rfl, readsLate_site, readsLate_reaches,
    hread.2 readsLateScope readsLateState readsLate_site readsLate_reaches⟩

/-- When `x` is computed it is 1, and 2 is what the sum uses. -/
theorem operand_overwritten : ∃ registers done after, readsLate.lower = .ok readsLateRoutine ∧
    (readsLateRoutine.run none (.new none)).result = .ok registers ∧
    Site readsLate (.value laterAssigned) readsLateState.next readsLateScope ∧
    Reaches readsLateRoutine.code (readsLateRoutine.start (.new none)) readsLateState ∧
    CarriesOut readsLateRoutine.code laterAssigned readsLateScope readsLateState done after
      [.number ⟨2, 0⟩, .number ⟨2, 0⟩] ∧
    done.map Evaluated.held = [some (.number ⟨1, 0⟩), some (.number ⟨2, 0⟩)] := by
  let u := (State.runFor readsLateRoutine.code 4 (readsLateRoutine.start (.new none))).1
  let t := (State.runFor readsLateRoutine.code 5 (readsLateRoutine.start (.new none))).1
  have hrun : State.runFor readsLateRoutine.code 2 readsLateState = (u, .stopped) := rfl
  have hsu : Reaches readsLateRoutine.code readsLateState u := State.runFor_spec hrun
  have hadd : State.runFor readsLateRoutine.code 1 u = (t, .stopped) := rfl
  have hut : Reaches readsLateRoutine.code u t := State.runFor_spec hadd
  let after : Scope := ⟨3, [("x", ⟨1, some .number⟩), ("x", ⟨1, some .number⟩)]⟩
  have hx : (expr (.ident "x")).Yields 2 readsLateScope ⟨1, some .number⟩ 2 readsLateScope :=
    ⟨[], by cbv, rfl⟩
  have hassign : (expr (.group (.binary (.ident "x") .assign (.literal (.number ⟨2, 0⟩))))).Yields 2
      readsLateScope ⟨2, some .number⟩ 4 after :=
    ⟨[.load (.number ⟨2, 0⟩) 2, .copy 2 1], by cbv, rfl⟩
  have hdone : Evaluates readsLateRoutine.code laterAssigned.inputs readsLateScope readsLateState
      [⟨⟨1, some .number⟩, some (.number ⟨1, 0⟩)⟩,
        ⟨⟨2, some .number⟩, some (.number ⟨2, 0⟩)⟩] after u :=
    .cons (s := readsLateState) (t := readsLateState) hx .refl
      (.cons (s := readsLateState) (t := u) hassign hsu .nil)
  have hsum : (arith .add ⟨1, some .number⟩ ⟨2, some .number⟩).Yields 4 after ⟨3, some .number⟩ 5
      { after with registers := 4 } := ⟨[.arith .add 1 2 3], by cbv, rfl⟩
  have huses : Uses u t 3 laterAssigned [.number ⟨2, 0⟩, .number ⟨2, 0⟩] :=
    .arith (v := .number ⟨4, 0⟩) rfl rfl
  exact ⟨_, _, _, readsLate_lower, rfl, readsLate_site, readsLate_reaches,
    ⟨u, _, _, _, t, hdone, hsum, hut, rfl, huses, rfl⟩, rfl⟩

end Program

end LineScript
