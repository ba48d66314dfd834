import LineScript.Proofs.Code.Hints

/-!
# Element kinds at run time

A container carries the kind of its elements. An element that is stored later widens that kind by
the kind that the element itself carries, so a store into honest values leaves honest values
(`Value.honest_of_setItem`). An array that is made is another matter: its kind comes from the hints
of its items, and nothing compares the two.

So the containers of a run are honest exactly if every array that the run makes has items of its
kind (`Program.honest_iff_trusting`), and that is the case in every program whose hints are not out
of date where lowering relies on them. It is not the case in every program: behind `false and (x =
1)` the hint of `x` is that of the assignment, which was skipped.
-/

set_option autoImplicit false

namespace LineScript

open State Emit

/-! ## The values in code -/

/-- The instruction is not one that loads a container. -/
def Instruction.LoadsScalar : Instruction → Prop
  | .load v _ => v.isScalar = true
  | _ => True

/-- The instruction loads no value without the property. -/
def Instruction.Loads (L : Value → Prop) : Instruction → Prop
  | .load v _ => L v
  | _ => True

theorem Instruction.loads_isScalar_iff {i : Instruction} :
    i.Loads (fun v => v.isScalar = true) ↔ i.LoadsScalar := by
  cases i <;> rfl

theorem Instruction.Loads.mono {L M : Value → Prop} {i : Instruction} (h : i.Loads L)
    (hLM : ∀ v, L v → M v) : i.Loads M := by
  cases i with
  | load v d => exact hLM v h
  | _ => trivial

/-- Each literal has the property. -/
def Expr.Literals (L : Value → Prop) (e : Expr) : Prop := e.All fun n => ∀ v, n = .literal v → L v

namespace Emit

variable {α β : Type} {P : Instruction → Prop}

/-- Every instruction of the piece satisfies `P`. -/
def Emits (P : Instruction → Prop) (x : Emit α) : Prop :=
  ∀ n scope a, x n scope = .ok a → ∀ i ∈ a.code, P i

/-- A piece emits what its parts emit. -/
theorem Emits.bind {x : Emit α} {f : α → Emit β} (hx : Emits P x) (hf : ∀ v, Emits P (f v)) :
    Emits P (x >>= f) := by
  intro n scope c hc i hi
  obtain ⟨a, b, ha, hb, rfl⟩ := bind_eq_ok hc
  rcases List.mem_append.1 hi with hi | hi
  · exact hx n scope a ha i hi
  · exact hf _ _ _ b hb i hi

theorem emits_pure (v : α) : Emits P (pure v) := by
  intro n scope a ha i hi
  obtain rfl : Emitted.mk v [] scope = a := Except.ok.inj ha
  cases hi

theorem emits_fail (e : LoweringError) : Emits P (fail e : Emit α) := by
  intro n scope a ha
  cases ha

theorem emits_fresh : Emits P fresh := by
  intro n scope a ha i hi
  obtain rfl := Except.ok.inj ha
  cases hi

theorem emits_find? (name : String) : Emits P (find? name) := by
  intro n scope a ha i hi
  obtain rfl := Except.ok.inj ha
  cases hi

theorem emits_bindName (name : String) (operand : Operand) : Emits P (bindName name operand) := by
  intro n scope a ha i hi
  obtain rfl := Except.ok.inj ha
  cases hi

/-- Of the building blocks only this one emits anything by itself. -/
theorem emits_instruction {i : Instruction} (h : P i) : Emits P (instruction i) := by
  intro n scope a ha j hj
  obtain rfl := Except.ok.inj ha
  rwa [List.mem_singleton.1 hj]

theorem Emits.skippedBy {jump : Nat → Instruction} {body : Emit α} (hj : ∀ t, P (jump t))
    (h : Emits P body) : Emits P (skippedBy jump body) := by
  intro n scope c hc i hi
  unfold Emit.skippedBy at hc
  split at hc
  · cases hc
  · rename_i b hb
    obtain rfl := Except.ok.inj hc
    rcases List.mem_cons.1 hi with rfl | hi
    · exact hj _
    · exact h _ _ b hb i hi

end Emit

namespace Lowering

variable {p : Program} {L : Value → Prop}

theorem into_emits {P : Instruction → Prop} {i : Register → Instruction} {kind : Option Kind}
    (h : ∀ r, P (i r)) : Emits P (into i kind) :=
  emits_fresh.bind fun r => (emits_instruction (h r)).bind fun _ => emits_pure _

theorem checkIndex_emits {P : Instruction → Prop} (index : Operand) :
    Emits P (checkIndex index) := by
  unfold checkIndex
  split
  · exact emits_pure _
  · exact emits_pure _
  · exact emits_fail _

theorem arith_emits (op : Arith) (l r : Operand) : Emits (Instruction.Loads L) (arith op l r) := by
  unfold arith
  split
  · exact into_emits fun _ => trivial
  · exact into_emits fun _ => trivial
  · exact into_emits fun _ => trivial

theorem get_emits (c k : Operand) : Emits (Instruction.Loads L) (get c k) := by
  unfold get
  split
  · exact (checkIndex_emits k).bind fun _ => into_emits fun _ => trivial
  · exact into_emits fun _ => trivial
  · exact into_emits fun _ => trivial

theorem put_emits (c k v : Operand) : Emits (Instruction.Loads L) (put c k v) := by
  have hset : ∀ {i : Instruction} {o : Operand}, i.Loads L →
      Emits (Instruction.Loads L) (do Emit.instruction i; pure o) :=
    fun hi => (emits_instruction hi).bind fun _ => emits_pure _
  unfold put
  split
  · exact (checkIndex_emits k).bind fun _ => hset trivial
  · exact hset trivial
  · exact hset trivial

theorem assign_emits (name : String) (value : Operand) :
    Emits (Instruction.Loads L) (assign name value) := by
  have htarget : ∀ bound, Emits (Instruction.Loads L) (target name value bound) := by
    intro bound
    unfold target
    split
    · exact emits_fresh
    · split
      · exact emits_pure _
      · split
        · exact emits_pure _
        · exact emits_fail _
    · exact emits_pure _
  refine (emits_find? name).bind fun bound => (htarget bound).bind fun register => ?_
  exact (emits_instruction trivial).bind fun _ => emits_bindName _ _

theorem connect_emits {jump : Register → Nat → Instruction} {l : Operand} {right : Expr}
    (hj : ∀ r t, (jump r t).Loads L) (h : Emits (Instruction.Loads L) (expr right)) :
    Emits (Instruction.Loads L) (connect jump l (expr right)) := by
  refine (into_emits fun _ => trivial).bind fun result => Emits.bind ?_ fun r => emits_pure _
  refine Emits.skippedBy (hj _) (h.bind fun r => ?_)
  exact (emits_instruction trivial).bind fun _ => emits_pure _

theorem putEntries_emits (map : Register) (pairs : List (Operand × Operand)) :
    Emits (Instruction.Loads L) (putEntries map pairs) := by
  induction pairs with
  | nil => exact emits_pure _
  | cons p rest ih => exact (emits_instruction trivial).bind fun _ => ih

/-- The code of an expression, and the code that stores into it, loads no value without the
property. -/
structure LoadingCode (L : Value → Prop) (e : Expr) : Prop where
  expr : Emits (Instruction.Loads L) (Lowering.expr e)
  store : ∀ value, Emits (Instruction.Loads L) (Lowering.store e value)

theorem exprs_emits {es : List Expr} (h : ∀ e ∈ es, LoadingCode L e) :
    Emits (Instruction.Loads L) (exprs es) := by
  induction es with
  | nil => exact emits_pure _
  | cons e es ih =>
    rw [exprs]
    refine (h e List.mem_cons_self).expr.bind fun o => ?_
    exact (ih fun e he => h e (List.mem_cons_of_mem _ he)).bind fun os => emits_pure _

theorem finish_emits {e : Expr} (hlit : ∀ v, e = .literal v → L v)
    (hparts : ∀ left op right, e = .binary left op right → LoadingCode L left ∧ LoadingCode L right)
    (os : List Operand) : Emits (Instruction.Loads L) (finish e os) := by
  unfold finish
  split
  · exact into_emits fun _ => hlit _ rfl
  · refine (emits_find? _).bind fun bound => ?_
    cases bound with
    | none => exact emits_fail _
    | some b => exact emits_pure _
  · exact emits_pure _
  · exact into_emits fun _ => trivial
  · refine (into_emits fun _ => trivial).bind fun map => ?_
    exact (putEntries_emits _ _).bind fun _ => emits_pure _
  · exact get_emits _ _
  · split
    · exact (emits_instruction trivial).bind fun _ => emits_fresh.bind fun _ => emits_pure _
    · split
      · refine Emits.bind ?_ fun _ => into_emits fun _ => trivial
        unfold checkContainer
        split
        · exact emits_pure _
        · exact emits_pure _
        · exact emits_pure _
        · exact emits_fail _
      · exact emits_fail _
  · rename_i op _ _
    cases op with
    | not => exact into_emits fun _ => trivial
    | negate => exact into_emits fun _ => trivial
  · exact arith_emits _ _ _
  · exact into_emits fun _ => trivial
  · exact connect_emits (fun _ _ => trivial) (hparts _ _ _ rfl).2.expr
  · exact connect_emits (fun _ _ => trivial) (hparts _ _ _ rfl).2.expr
  · exact ((hparts _ _ _ rfl).1.store _).bind fun _ => emits_pure _
  · exact (arith_emits _ _ _).bind
      fun v => ((hparts _ _ _ rfl).1.store v).bind fun _ => emits_pure _
  · exact emits_fail _

/-- Only literals are loaded. -/
theorem expr_emits {e : Expr} (he : e.Literals L) : LoadingCode L e := by
  -- Operands first, then what is done with them; a store into an element makes a store into its
  -- container.
  induction e using Expr.inductOperands with
  | step e hops hparts =>
    have hoperand : ∀ x ∈ e.operands, LoadingCode L x :=
      fun x hx => hops x hx (all_of_mem_operands he hx)
    refine ⟨fun n scope a ha => ?_, fun value => ?_⟩
    · have hboth : ∀ left op right, e = .binary left op right →
          LoadingCode L left ∧ LoadingCode L right := by
        rintro left op right rfl
        obtain ⟨_, hl, hr⟩ := Expr.all_binary_iff.1 he
        exact ⟨(hparts left op right rfl).1 hl, (hparts left op right rfl).2 hr⟩
      exact (exprs_emits hoperand).bind (fun os => finish_emits he.self hboth os) n scope a
        (expr_factors ha)
    · cases e with
      | ident name => exact assign_emits name value
      | element base key =>
        rw [store]
        refine (hoperand base (by simp [Expr.operands])).expr.bind fun c => ?_
        refine (hoperand key (by simp [Expr.operands])).expr.bind
          fun k => (put_emits c k value).bind fun o => ?_
        split
        · exact emits_bindName _ _
        · exact (hoperand base (by simp [Expr.operands])).store o
      | _ => exact emits_fail _

/-- Code loads nothing but the literals of its program. -/
theorem statements_load {start : Nat} {scope : Scope} {all : Emitted Unit}
    (hp : ∀ st ∈ p, st.expr.Literals L) (h : statements start scope p = .ok all) :
    ∀ i ∈ all.code, i.Loads L := by
  induction p generalizing start scope all with
  | nil =>
    obtain rfl := Except.ok.inj h
    exact fun i hi => absurd hi List.not_mem_nil
  | cons st rest ih =>
    obtain ⟨first, others, hfirst, hothers, rfl⟩ := statements_cons h
    intro i hi
    rcases List.mem_append.1 hi with hi | hi
    · exact (expr_emits (hp st List.mem_cons_self)).expr _ _ first hfirst i hi
    · exact ih (fun st hst => hp st (List.mem_cons_of_mem _ hst)) hothers i hi

theorem statements_emit {start : Nat} {scope : Scope} {all : Emitted Unit}
    (hp : ∀ st ∈ p, st.expr.ScalarLiterals) (h : statements start scope p = .ok all) :
    ∀ i ∈ all.code, i.LoadsScalar :=
  fun i hi => Instruction.loads_isScalar_iff.1 (statements_load hp h i hi)

end Lowering

/-! ## What instructions write -/

namespace Instruction

variable {rs : Registers} {i : Instruction} {r : Register} {v : Value}

/-- Where the value that an instruction writes comes from, if the instruction is none that loads a
container. -/
inductive Written (rs : Registers) : Instruction → Value → Prop
  | scalar {i : Instruction} {v : Value} (h : v.isScalar = true) : Written rs i v
  | emptyMap {i : Instruction} (kind : Kind) : Written rs i (.emptyMap kind)
  | copied {i : Instruction} {q : Register} {v : Value} (h : rs.get? q = some v) : Written rs i v
  | gathered {kind : Kind} {elements : List Register} {result : Register} {items : List Value}
      (h : elements.map rs.get? = items.map some) :
      Written rs (.makeArray kind elements result) (.array kind items)
  | item {i : Instruction} {q : Register} {a v : Value} {index : Decimal} (ha : rs.get? q = some a)
      (h : a.getItem index = .ok v) : Written rs i v
  | entry {i : Instruction} {q : Register} {m v : Value} {key : String} (hm : rs.get? q = some m)
      (h : m.getEntry key = .ok v) : Written rs i v
  | withItem {i : Instruction} {q p : Register} {a v new : Value} {index : Decimal}
      (ha : rs.get? q = some a) (hv : rs.get? p = some v)
      (h : a.setItem index v = .ok new) : Written rs i new
  | withEntry {i : Instruction} {q p : Register} {m v new : Value} {key : String}
      (hm : rs.get? q = some m) (hv : rs.get? p = some v)
      (h : m.setEntry key v = .ok new) : Written rs i new

/-- Items that were read come from registers. -/
theorem register_of_mem {elements : List Register} {items : List Value} {item : Value}
    (h : elements.map rs.get? = items.map some) (hitem : item ∈ items) :
    ∃ q ∈ elements, rs.get? q = some item := by
  have hread : some item ∈ elements.map rs.get? := h ▸ List.mem_map_of_mem hitem
  exact List.mem_map.1 hread

theorem written_of_effect (hload : i.LoadsScalar) (h : i.effect rs = .ok (.write r v)) :
    i.Written rs v := by
  cases i with
  | load u d => cases h; exact .scalar hload
  | copy l d => obtain ⟨u, hu, heq⟩ := effect_copy h; cases heq; exact .copied hu
  | makeArray kind elements d =>
    obtain ⟨items, hitems, heq⟩ := effect_makeArray h
    cases heq
    exact .gathered hitems
  | makeMap kind d => cases h; exact .emptyMap kind
  | getItem a k d =>
    obtain ⟨_, _, _, ha, _, hu, heq⟩ := effect_getItem h
    cases heq
    exact .item ha hu
  | getEntry m k d =>
    obtain ⟨_, _, _, hm, _, hu, heq⟩ := effect_getEntry h
    cases heq
    exact .entry hm hu
  | setItem a k u =>
    obtain ⟨_, _, _, _, ha, _, hu, hnew, heq⟩ := effect_setItem h
    cases heq
    exact .withItem ha hu hnew
  | setEntry m k u =>
    obtain ⟨_, _, _, _, hm, _, hu, hnew, heq⟩ := effect_setEntry h
    cases heq
    exact .withEntry hm hu hnew
  | arith op l r d => obtain ⟨_, _, _, _, _, _, heq⟩ := effect_arith h; cases heq; exact .scalar rfl
  | combine l r d => obtain ⟨_, _, _, _, heq⟩ := effect_combine h; cases heq; exact .scalar rfl
  | concat l r d => obtain ⟨_, _, _, _, heq⟩ := effect_concat h; cases heq; exact .scalar rfl
  | relate op l r d =>
    obtain ⟨_, _, _, _, _, _, heq⟩ := effect_relate h
    cases heq
    exact .scalar rfl
  | negate l d => obtain ⟨_, _, _, _, heq⟩ := effect_negate h; cases heq; exact .scalar rfl
  | not l d => obtain ⟨_, _, heq⟩ := effect_not h; cases heq; exact .scalar rfl
  | len l d => obtain ⟨_, _, _, _, heq⟩ := effect_len h; cases heq; exact .scalar rfl
  | print arguments => obtain ⟨_, _, heq⟩ := effect_print h; cases heq
  | jump target => cases h
  | jumpIf l target => obtain ⟨_, _, heq⟩ := effect_jumpIf h; split at heq <;> cases heq
  | jumpUnless l target => obtain ⟨_, _, heq⟩ := effect_jumpUnless h; split at heq <;> cases heq

end Instruction

/-! ## Steps -/

/-- What is true of all values in registers stays so, if it is true of what is written. -/
theorem State.Step.forall_effects {P : Value → Prop} {code : List Instruction} {s t : State}
    (hstep : Step code s t) (h : ∀ r v, s.registers.get? r = some v → P v)
    (hwrite : ∀ i r v, code[s.next]? = some i → i.effect s.registers = .ok (.write r v) → P v) :
    ∀ r v, t.registers.get? r = some v → P v := by
  obtain ⟨i, hi, ht⟩ := hstep
  obtain ⟨effect, he, hp⟩ := execute_eq_none_iff.1 ht
  cases effect with
  | write r v =>
    obtain rfl : s.wrote r v = t := congrArg Prod.fst hp
    have hv := hwrite i r v hi he
    intro q u hu
    rw [wrote_get?] at hu
    by_cases hq : q = r
    · rw [if_pos hq] at hu
      exact Option.some.inj hu ▸ hv
    · rw [if_neg hq] at hu
      exact h q u hu
  | print line =>
    obtain rfl := congrArg Prod.fst hp
    exact h
  | jump target =>
    obtain rfl := congrArg Prod.fst hp
    exact h
  | proceed =>
    obtain rfl := congrArg Prod.fst hp
    exact h

/-- The same by where the written values come from, in code that loads only scalars. -/
theorem State.Step.forall_registers {P : Value → Prop} {code : List Instruction}
    {s t : State} (hcode : ∀ i ∈ code, i.LoadsScalar)
    (hstep : Step code s t) (h : ∀ r v, s.registers.get? r = some v → P v)
    (hwritten : ∀ i v, code[s.next]? = some i → i.Written s.registers v → P v) :
    ∀ r v, t.registers.get? r = some v → P v :=
  hstep.forall_effects h fun i _ v hi he =>
    hwritten i v hi (Instruction.written_of_effect (hcode i (List.mem_of_getElem? hi)) he)

/-- Every value in a register is honest. -/
def State.Honest (s : State) : Prop := ∀ r v, s.registers.get? r = some v → v.honest = true

/-- An instruction writes honest values if it reads such, unless it makes an array of items that are
not of its kind. -/
theorem State.Honest.written {s : State} {i : Instruction} {v : Value} (h : s.Honest)
    (hmake : ∀ kind elements result items, i = .makeArray kind elements result →
      elements.map s.registers.get? = List.map some items → ∀ v ∈ items, v.conforms kind = true)
    (hv : i.Written s.registers v) : v.honest = true := by
  cases hv with
  | scalar hscalar => exact (Value.conforms_kind_of_isScalar hscalar).2
  | emptyMap kind => rfl
  | copied hq => exact h _ v hq
  | @gathered kind elements result items hitems =>
    refine Value.honest_array_iff.2 fun item hitem => ⟨hmake _ _ _ items rfl hitems item hitem, ?_⟩
    -- The items are honest because they were read from registers.
    obtain ⟨q, _, hq⟩ := Instruction.register_of_mem hitems hitem
    exact h q item hq
  | item ha hitem => exact Value.honest_of_getItem (h _ _ ha) hitem
  | entry hm hentry => exact Value.honest_of_getEntry (h _ _ hm) hentry
  | withItem ha hu hnew => exact Value.honest_of_setItem (h _ _ ha) (h _ _ hu) hnew
  | withEntry hm hu hnew => exact Value.honest_of_setEntry (h _ _ hm) (h _ _ hu) hnew

/-- A step keeps element kinds honest if it makes no array with a wrong one. -/
theorem State.Step.honest {code : List Instruction} {s t : State}
    (hcode : ∀ i ∈ code, i.LoadsScalar) (hstep : Step code s t) (h : s.Honest)
    (hs : Trusting code s) : t.Honest := by
  refine hstep.forall_registers hcode h fun i v hi hv => h.written ?_ hv
  rintro kind elements result items rfl hitems
  exact hs kind elements result items hi hitems

/-- As long as every array that is made has items of its kind, values stay honest. -/
theorem State.Reaches.honest {code : List Instruction} {s t : State}
    (hcode : ∀ i ∈ code, i.LoadsScalar) (h : s.Honest)
    (hs : ∀ u, Reaches code s u → Trusting code u) (hr : Reaches code s t) : t.Honest := by
  -- Step by step along the run.
  induction hr with
  | refl => exact h
  | tail hu hstep ih => exact hstep.honest hcode ih (hs _ hu)

/-- If the array that is made next is honest, its items are of its kind. -/
theorem trusting_of_honest {code : List Instruction} {s : State}
    (h : ∀ t, Step code s t → t.Honest) : Trusting code s := by
  intro kind elements result items hi hitems v hv
  have he : (Instruction.makeArray kind elements result).effect s.registers =
      .ok (.write result (.array kind items)) := by
    simp only [Instruction.effect, bind_eq_ok_iff, Registers.readAll_eq_ok_iff, pure_eq_ok_iff]
    exact ⟨items, hitems, rfl⟩
  have hstep : Step code s (s.wrote result (.array kind items)) :=
    ⟨_, hi, execute_eq_none_iff.2 ⟨_, he, rfl⟩⟩
  exact (Value.honest_array_iff.1 (h _ hstep result _ (wrote_get?_self _ _ _)) v hv).1

/-! ## Programs -/

namespace Program

open Lowering

/-- **Honest containers.** In the runs of a program whose literals are scalars, all containers have
only elements of the kind they carry exactly if every array that is made has items of its kind. That
is so if no hint is out of date where lowering relies on it. -/
theorem honest_iff_trusting (p : Program) (routine : Routine) (sink : Sink)
    (hscalar : ∀ st ∈ p, st.expr.ScalarLiterals) (hlower : p.lower = .ok routine) :
    ((∀ t, Reaches routine.code (routine.start sink) t → t.Honest) ↔
      ∀ t, Reaches routine.code (routine.start sink) t → Trusting routine.code t) ∧
    (Steady False p → ∀ t, Reaches routine.code (routine.start sink) t → t.Honest) := by
  obtain ⟨all, hall, hr⟩ := statements_of_lower hlower
  have hcode : ∀ i ∈ routine.code, i.LoadsScalar := by
    rw [hr]
    exact statements_emit hscalar hall
  have hstart : (routine.start sink).Honest := by
    intro r v hv
    change (Registers.empty _).get? r = some v at hv
    rw [Registers.get?_empty] at hv
    cases hv
  have htrust : (∀ t, Reaches routine.code (routine.start sink) t → Trusting routine.code t) →
      ∀ t, Reaches routine.code (routine.start sink) t → t.Honest :=
    fun hs t ht => ht.honest hcode hstart hs
  refine ⟨⟨fun h t ht => trusting_of_honest fun u hu => h u (ht.tail hu), htrust⟩,
    fun hsteady => htrust fun t ht => ?_⟩
  -- A program that is steady trusts its hints rightly, wherever the run is.
  have hplaced := placed_statements hlower hall
  have hinitial : Typed False .empty (routine.start sink) := Variables.initial routine sink
  rcases (statements_typed hsteady hscalar (List.append_nil p).symm hall hplaced rfl
    hinitial).passes ht with
    ⟨⟨_, hI⟩, _⟩ | ⟨u, ⟨hn, _⟩, _, hut⟩
  · exact hI
  · -- Behind the last statement nothing is made any more.
    have hnone : routine.code[u.next]? = none := by
      rw [hr]
      exact List.getElem?_eq_none (Nat.le_of_eq hn.symm)
    obtain rfl := hut.eq_of_none hnone
    intro kind elements result items hi
    rw [hnone] at hi
    cases hi

/-- `x = [1]`, `x[0] = "s"` -/
def widenedTag : Program :=
  [⟨.binary (.ident "x") .assign (.array [.literal (.number ⟨1, 0⟩)]), default⟩,
    ⟨.binary (.element (.ident "x") (.literal (.number ⟨0, 0⟩))) .assign (.literal (.string "s")),
      default⟩]

/-- The containers of `widenedTag` are honest throughout. -/
theorem honest_iff_trusting_widenedTag : ∃ routine, widenedTag.lower = .ok routine ∧
    ∀ t, Reaches routine.code (routine.start (.new none)) t → t.Honest := by
  have hlower : widenedTag.lower = .ok ⟨[.load (.number ⟨1, 0⟩) 0, .makeArray .number [0] 1,
      .copy 1 2, .load (.string "s") 3, .load (.number ⟨0, 0⟩) 4, .setItem 2 4 3], 5⟩ := by
    cbv
  have hscalar : ∀ st ∈ widenedTag, st.expr.ScalarLiterals := by
    simp [widenedTag, Expr.ScalarLiterals, Expr.all_iff, Expr.parts, Expr.nodesOf, Value.isScalar]
  have hroots : ∀ st ∈ widenedTag, st.expr.AssignsAtRoot := by
    simp [widenedTag, Expr.AssignsAtRoot, Expr.parts, Expr.nodesOf, Expr.isAssignment]
  exact ⟨_, hlower, (honest_iff_trusting _ _ _ hscalar hlower).2 (steady_of_assignsAtRoot hroots)⟩

/-- `x = true and "s"`, `false and (x = 1)`, `y = [x, 1]` -/
def staleHint : Program :=
  [⟨.binary (.ident "x") .assign (.binary (.literal (.bool true)) .and (.literal (.string "s"))),
    default⟩,
    ⟨.binary (.literal (.bool false)) .and
      (.group (.binary (.ident "x") .assign (.literal (.number ⟨1, 0⟩)))), default⟩,
    ⟨.binary (.ident "y") .assign (.array [.ident "x", .literal (.number ⟨1, 0⟩)]), default⟩]

/-- The code of `staleHint`. The assignment to `x` in its second line is skipped by the jump at
8. -/
def staleRoutine : Routine :=
  ⟨[.load (.bool true) 0, .copy 0 1, .jumpUnless 1 5, .load (.string "s") 2, .copy 2 1, .copy 1 3,
    .load (.bool false) 4, .copy 4 5, .jumpUnless 5 12, .load (.number ⟨1, 0⟩) 6, .copy 6 3,
    .copy 6 5, .load (.number ⟨1, 0⟩) 7, .makeArray .number [3, 7] 8, .copy 8 9], 10⟩

/-- The array in `y` carries the kind of numbers and has a string among its items. -/
theorem not_honest_staleHint :
    (∀ st ∈ staleHint, st.expr.ScalarLiterals) ∧ staleHint.lower = .ok staleRoutine ∧
      ∃ t, Reaches staleRoutine.code (staleRoutine.start (.new none)) t ∧
        t.registers.get? 9 = some (.array .number [.string "s", .number ⟨1, 0⟩]) ∧ ¬ t.Honest := by
  have hlower : staleHint.lower = .ok staleRoutine := by
    cbv
  have hscalar : ∀ st ∈ staleHint, st.expr.ScalarLiterals := by
    simp [staleHint, Expr.ScalarLiterals, Expr.all_iff, Expr.parts, Expr.nodesOf, Value.isScalar]
  obtain ⟨registers, hrun, hget⟩ : ∃ registers,
      (staleRoutine.run none (.new none)).result = .ok registers ∧
        registers.get? 9 = some (.array .number [.string "s", .number ⟨1, 0⟩]) := ⟨_, rfl, rfl⟩
  obtain ⟨t, hreach, _, rfl, _⟩ := Routine.run_ok hrun
  refine ⟨hscalar, hlower, t, hreach, hget, fun honest => ?_⟩
  have hfalse := honest 9 _ hget
  revert hfalse
  decide

end Program

end LineScript
