import LineScript.Code.Lowering
import LineScript.Proofs.Machine.Instruction

/-!
# A logic for emitted code

`Emit.wp` says of a piece of code what its run comes to: standing anywhere in the code of a routine,
a run that enters the piece at its start leaves it at its end with `Q`, or ends inside with a fault
that is allowed. `Q` speaks about the value that the piece yields, the scope it leaves and the state
of the run, so one statement covers what is known before the run and what happens in it.

There is one rule for each way in which pieces are built. `wp_bind` puts two pieces one behind the
other and `wp_skippedBy` puts a jump in front of one; all reckoning with indexes happens in these
two and nowhere else.
-/

set_option autoImplicit false

namespace LineScript

open State

/-- A piece stands in code at an index. -/
def Placed (code : List Instruction) (start : Nat) (piece : List Instruction) : Prop :=
  ∀ k i, piece[k]? = some i → code[start + k]? = some i

namespace Placed

variable {code p q : List Instruction} {start : Nat}

theorem left (h : Placed code start (p ++ q)) : Placed code start p := by
  intro k i hk
  have hlt : k < p.length := (List.getElem?_eq_some_iff.1 hk).1
  exact h k i (by rw [List.getElem?_append_left hlt, hk])

theorem right (h : Placed code start (p ++ q)) : Placed code (start + p.length) q := by
  intro k i hk
  have hget : (p ++ q)[p.length + k]? = some i := by
    rw [List.getElem?_append_right (Nat.le_add_right _ _), Nat.add_sub_cancel_left, hk]
  rw [Nat.add_assoc]
  exact h _ i hget

theorem head {i : Instruction} (h : Placed code start (i :: q)) : code[start]? = some i := h 0 i rfl

theorem tail {i : Instruction} (h : Placed code start (i :: q)) : Placed code (start + 1) q :=
  right (p := [i]) h

/-- An index inside a piece finds an instruction of the piece. -/
theorem mem {u : Nat} (h : Placed code start p) (hle : start ≤ u) (hlt : u < start + p.length) :
    ∃ i ∈ p, code[u]? = some i := by
  have hk : u - start < p.length := by omega
  refine ⟨p[u - start], List.getElem_mem hk, ?_⟩
  have hget := h (u - start) _ (List.getElem?_eq_getElem hk)
  rwa [Nat.add_sub_cancel' hle] at hget

end Placed

/-! ## States behind an instruction -/

namespace State

/-- The state behind an instruction that writes a register. -/
def wrote (s : State) (r : Register) (v : Value) : State :=
  ⟨s.registers.set r v, s.next + 1, s.sink⟩

@[simp]
theorem wrote_next (s : State) (r : Register) (v : Value) : (s.wrote r v).next = s.next + 1 := rfl

@[simp]
theorem wrote_sink (s : State) (r : Register) (v : Value) : (s.wrote r v).sink = s.sink := rfl

theorem wrote_get? (s : State) (r q : Register) (v : Value) :
    (s.wrote r v).registers.get? q = if q = r then some v else s.registers.get? q :=
  Registers.get?_set _ _ _ _

@[simp]
theorem wrote_get?_self (s : State) (r : Register) (v : Value) :
    (s.wrote r v).registers.get? r = some v := by
  rw [wrote_get?, if_pos rfl]

theorem wrote_get?_of_ne {s : State} {r q : Register} {v : Value} (h : q ≠ r) :
    (s.wrote r v).registers.get? q = s.registers.get? q := by
  rw [wrote_get?, if_neg h]

end State

namespace Emit

variable {α β : Type} {code : List Instruction} {I : State → Prop} {E : Instruction → Fault → Prop}
  {scope : Scope} {s : State}

/-- What a piece comes to when it is put at an index in a scope: its value, the index behind it and
the scope it leaves. -/
def Yields (x : Emit α) (start : Nat) (scope : Scope) (value : α) (stop : Nat)
    (after : Scope) : Prop :=
  ∃ piece, x start scope = .ok ⟨value, piece, after⟩ ∧ stop = start + piece.length

/-- A run that enters the piece at its start leaves it at its end with `Q`, or fails inside it in a
way that is allowed. -/
def wp (code : List Instruction) (I : State → Prop) (E : Instruction → Fault → Prop) (x : Emit α)
    (Q : α → Scope → State → Prop) (scope : Scope) (s : State) : Prop :=
  ∀ a, x s.next scope = .ok a → Placed code s.next a.code →
    Leads code (fun u => s.next ≤ u.next ∧ u.next < s.next + a.code.length ∧ I u) E
      (fun t => t.next = s.next + a.code.length ∧ Q a.value a.scope t) s

theorem bind_apply (x : Emit α) (f : α → Emit β) (start : Nat) (scope : Scope) :
    (x >>= f) start scope =
      match x start scope with
      | .error e => .error e
      | .ok a =>
        match f a.value (start + a.code.length) a.scope with
        | .error e => .error e
        | .ok b => .ok ⟨b.value, a.code ++ b.code, b.scope⟩ := rfl

theorem bind_ok {x : Emit α} {f : α → Emit β} {start : Nat} {a : Emitted α} {b : Emitted β}
    (ha : x start scope = .ok a) (hb : f a.value (start + a.code.length) a.scope = .ok b) :
    (x >>= f) start scope = .ok ⟨b.value, a.code ++ b.code, b.scope⟩ := by
  rw [bind_apply, ha]
  simp only [hb]

/-- How pieces are grouped does not matter. -/
theorem bind_assoc {γ : Type} (x : Emit α) (f : α → Emit β) (g : β → Emit γ) :
    x >>= f >>= g = x >>= fun a => f a >>= g := by
  funext start scope
  rw [bind_apply, bind_apply, bind_apply]
  cases x start scope with
  | error e => rfl
  | ok a =>
    simp only [bind_apply]
    cases f a.value (start + a.code.length) a.scope with
    | error e => rfl
    | ok b =>
      simp only [List.length_append, ← Nat.add_assoc]
      cases g b.value (start + a.code.length + b.code.length) b.scope with
      | error e => rfl
      | ok c => simp only [List.append_assoc]

theorem Yields.bind {x : Emit α} {f : α → Emit β} {start m stop : Nat} {mid after : Scope} {a : α}
    {b : β} (hx : x.Yields start scope a m mid) (hf : (f a).Yields m mid b stop after) :
    (x >>= f).Yields start scope b stop after := by
  obtain ⟨p, hp, rfl⟩ := hx
  obtain ⟨q, hq, rfl⟩ := hf
  exact ⟨p ++ q, bind_ok hp hq, by rw [List.length_append, Nat.add_assoc]⟩

/-! ## Rules -/

theorem wp_mono {x : Emit α} {Q R : α → Scope → State → Prop} (h : wp code I E x Q scope s)
    (hQ : ∀ v after t, x.Yields s.next scope v t.next after → Q v after t → R v after t) :
    wp code I E x R scope s := by
  intro a ha hp
  refine (h a ha hp).mono (fun u hu => hu) (fun i f hf => hf) ?_
  rintro t ⟨hn, hQt⟩
  exact ⟨hn, hQ _ _ _ ⟨a.code, ha, hn⟩ hQt⟩

/-- A run from the start of a piece to somewhere behind it has left the piece at its end. -/
theorem wp_passes {x : Emit α} {Q : α → Scope → State → Prop} {v : α} {stop : Nat}
    {after : Scope} {t : State} (h : wp code I E x Q scope s) {piece : List Instruction}
    (hx : x s.next scope = .ok ⟨v, piece, after⟩) (hp : Placed code s.next piece)
    (hstop : stop = s.next + piece.length) (hr : Reaches code s t) (hle : stop ≤ t.next) :
    ∃ u, Reaches code s u ∧ Reaches code u t ∧ u.next = stop ∧ Q v after u := by
  -- Inside the piece the run cannot be, for that lies before `stop`.
  rcases (h _ hx hp).passes hr with ⟨⟨_, hlt, _⟩, _⟩ | ⟨u, ⟨hn, hQ⟩, hsu, hut⟩
  · simp only at hlt
    omega
  · exact ⟨u, hsu, hut, hn.trans hstop.symm, hQ⟩

theorem wp_bind {x : Emit α} {f : α → Emit β} {Q : β → Scope → State → Prop}
    (h : wp code I E x (fun v => wp code I E (f v) Q) scope s) :
    wp code I E (x >>= f) Q scope s := by
  intro c hc hp
  -- The second piece starts where the first ends. States inside either of them are inside the
  -- whole.
  obtain ⟨a, b, ha, hb, rfl⟩ := bind_eq_ok hc
  refine (h a ha hp.left).trans ?_ (fun _ _ hf => hf) ?_
  · rintro u ⟨hle, hlt, hI⟩
    simp only [List.length_append]
    exact ⟨hle, by omega, hI⟩
  · rintro t ⟨hn, ht⟩
    rw [← hn] at hb
    refine (ht b hb (hn ▸ hp.right)).mono ?_ (fun _ _ hf => hf) ?_
    · rintro u ⟨hle, hlt, hI⟩
      simp only [List.length_append]
      exact ⟨by omega, by omega, hI⟩
    · rintro u ⟨hu, hQ⟩
      simp only [List.length_append]
      exact ⟨by omega, hQ⟩

/-- Two pieces that come to the same, where the first comes to anything. -/
theorem wp_congr {x y : Emit α} {Q : α → Scope → State → Prop}
    (hxy : ∀ a, x s.next scope = .ok a → y s.next scope = .ok a) (h : wp code I E y Q scope s) :
    wp code I E x Q scope s :=
  fun a ha hp => h a (hxy a ha) hp

/-- Whether a piece comes to anything is known before the run. -/
theorem wp_of_ok {x : Emit α} {Q : α → Scope → State → Prop}
    (h : ∀ a, x s.next scope = .ok a → wp code I E x Q scope s) : wp code I E x Q scope s :=
  fun a ha hp => h a ha a ha hp

theorem wp_pure {v : α} {Q : α → Scope → State → Prop} (h : Q v scope s) :
    wp code I E (pure v) Q scope s := by
  intro a ha _
  obtain rfl : Emitted.mk v [] scope = a := Except.ok.inj ha
  exact .here ⟨rfl, h⟩

theorem wp_fail {e : LoweringError} {Q : α → Scope → State → Prop} :
    wp code I E (fail e) Q scope s := by
  intro a ha _
  cases ha

theorem wp_fresh {Q : Register → Scope → State → Prop}
    (h : Q scope.registers { scope with registers := scope.registers + 1 } s) :
    wp code I E fresh Q scope s := by
  intro a ha _
  obtain rfl := Except.ok.inj ha
  exact .here ⟨rfl, h⟩

theorem wp_find? {name : String} {Q : Option Operand → Scope → State → Prop}
    (h : Q (scope.find? name) scope s) : wp code I E (find? name) Q scope s := by
  intro a ha _
  obtain rfl := Except.ok.inj ha
  exact .here ⟨rfl, h⟩

theorem wp_bindName {name : String} {operand : Operand} {Q : Unit → Scope → State → Prop}
    (h : Q () (scope.bind name operand) s) : wp code I E (bindName name operand) Q scope s := by
  intro a ha _
  obtain rfl := Except.ok.inj ha
  exact .here ⟨rfl, h⟩

theorem wp_instruction {i : Instruction} {Q : Unit → Scope → State → Prop}
    (hI : code[s.next]? = some i → I s)
    (hE : ∀ t fault, s.advance.execute i = (t, some fault) → E i fault)
    (hQ : ∀ t, s.advance.execute i = (t, none) → t.next = s.next + 1 ∧ Q () scope t) :
    wp code I E (instruction i) Q scope s := by
  intro a ha hp
  obtain rfl := Except.ok.inj ha
  have hi := hp.head
  refine .step hi ⟨Nat.le_refl _, ?_, hI hi⟩ hE ?_
  · simp only [List.length_singleton]
    omega
  · intro t ht
    exact .here (hQ t ht)

/-- An instruction that only writes. -/
theorem wp_write {i : Instruction} {Q : Unit → Scope → State → Prop}
    (hI : code[s.next]? = some i → I s)
    (hE : ∀ fault, i.effect s.registers = .error fault → E i fault)
    (hQ : ∀ effect, i.effect s.registers = .ok effect →
      ∃ r v, effect = .write r v ∧ Q () scope (s.wrote r v)) :
    wp code I E (instruction i) Q scope s := by
  refine wp_instruction hI ?_ ?_
  · intro t fault ht
    rcases fault_of_execute ht with he | ⟨_, line, he⟩
    · exact hE fault he
    · obtain ⟨r, v, hw, _⟩ := hQ _ he
      cases hw
  · intro t ht
    obtain ⟨effect, he, hp⟩ := execute_eq_none_iff.1 ht
    obtain ⟨r, v, rfl, hQ'⟩ := hQ effect he
    obtain rfl : s.wrote r v = t := congrArg Prod.fst hp
    exact ⟨rfl, hQ'⟩

/-- A line is printed whole or the run ends. -/
theorem wp_print {arguments : List Register} {Q : Unit → Scope → State → Prop}
    (hI : code[s.next]? = some (.print arguments) → I s)
    (hE : ∀ fault, (Instruction.print arguments).effect s.registers = .error fault →
      E (.print arguments) fault) (hclosed : E (.print arguments) .outputClosed)
    (hQ : ∀ values sink, arguments.map s.registers.get? = values.map some →
      sink.taken.toList = s.sink.taken.toList ++ Utf8.encode (printedLine values) →
      Q () scope ⟨s.registers, s.next + 1, sink⟩) :
    wp code I E (instruction (.print arguments)) Q scope s := by
  refine wp_instruction hI ?_ ?_
  · intro t fault ht
    rcases fault_of_execute ht with he | ⟨rfl, _⟩
    · exact hE fault he
    · exact hclosed
  · intro t ht
    obtain ⟨effect, he, hp⟩ := execute_eq_none_iff.1 ht
    obtain ⟨values, hv, rfl⟩ := Instruction.effect_print he
    obtain ⟨rfl, hfault⟩ := Prod.mk.inj hp
    -- Had the line not fitted, the instruction would have failed.
    have hroom : (Utf8.encode (printedLine values)).length ≤
        s.sink.room (Utf8.encode (printedLine values)) := by
      refine Nat.not_lt.1 (fun hn => ?_)
      rw [advance_sink, if_neg (Nat.not_le_of_lt hn)] at hfault
      cases hfault
    refine ⟨rfl, hQ values _ hv ?_⟩
    rw [advance_sink, Sink.take_eq_append, List.take_of_length_le hroom]

/-- A jump over a piece: the run goes on inside the piece or right behind it. What holds behind the
piece has to hold without it too. -/
theorem wp_skippedBy {jump : Nat → Instruction} {body : Emit α} {Q : α → Scope → State → Prop}
    (hI : ∀ target, code[s.next]? = some (jump target) → I s) (hE : ∀ target t fault,
      s.advance.execute (jump target) = (t, some fault) → E (jump target) fault)
    (hQ : ∀ target t, s.advance.execute (jump target) = (t, none) →
      t.next = s.next + 1 ∧ wp code I E body Q scope t ∨
      t.next = target ∧ ∀ v stop after, body.Yields (s.next + 1) scope v stop after → Q v after t) :
    wp code I E (skippedBy jump body) Q scope s := by
  intro c hc hp
  -- The jump stands at the start; its target is the index behind the piece.
  unfold skippedBy at hc
  split at hc
  · cases hc
  · rename_i b hb
    obtain rfl := Except.ok.inj hc
    have hi := hp.head
    refine .step hi ⟨Nat.le_refl _, ?_, hI _ hi⟩ (hE _) ?_
    · simp only [List.length_cons]
      omega
    · intro t ht
      rcases hQ _ t ht with ⟨hn, hbody⟩ | ⟨hn, hskip⟩
      · rw [← hn] at hb
        refine (hbody b hb (hn ▸ hp.tail)).mono ?_ (fun _ _ hf => hf) ?_
        · rintro u ⟨hle, hlt, hIu⟩
          simp only [List.length_cons]
          exact ⟨by omega, by omega, hIu⟩
        · rintro u ⟨hu, hQu⟩
          simp only [List.length_cons]
          exact ⟨by omega, hQu⟩
      · refine .here ⟨?_, hskip b.value _ b.scope ⟨b.code, hb, rfl⟩⟩
        simp only [List.length_cons]
        omega

/-- A conditional jump: it is taken where the truth of a register is `taken`. -/
def Branches (jump : Nat → Instruction) (condition : Register) (taken : Bool) : Prop :=
  ∀ target rs effect, (jump target).effect rs = .ok effect →
    ∃ v, rs.get? condition = some v ∧ effect = if v.isTrue = taken then .jump target else .proceed

/-- Where a conditional jump leads. -/
theorem Branches.moves {jump : Nat → Instruction} {condition : Register} {taken : Bool}
    {target : Nat} {t : State} (hjump : Branches jump condition taken)
    (h : s.advance.execute (jump target) = (t, none)) :
    ∃ v, s.registers.get? condition = some v ∧
      (v.isTrue = taken ∧ t = { s with next := target } ∨ v.isTrue ≠ taken ∧ t = s.advance) := by
  obtain ⟨effect, he, hp⟩ := execute_eq_none_iff.1 h
  obtain ⟨v, hv, rfl⟩ := hjump _ _ _ he
  by_cases hcond : v.isTrue = taken
  · rw [if_pos hcond] at hp
    exact ⟨v, hv, Or.inl ⟨hcond, (congrArg Prod.fst hp).symm⟩⟩
  · rw [if_neg hcond] at hp
    exact ⟨v, hv, Or.inr ⟨hcond, (congrArg Prod.fst hp).symm⟩⟩

/-- A piece behind a conditional jump. -/
theorem wp_branch {jump : Nat → Instruction} {condition : Register} {taken : Bool} {body : Emit α}
    {Q : α → Scope → State → Prop} (hjump : Branches jump condition taken)
    (hI : ∀ target, code[s.next]? = some (jump target) → I s)
    (hE : ∀ target fault, (jump target).effect s.registers = .error fault → E (jump target) fault)
    (henter : ∀ v, s.registers.get? condition = some v →
      v.isTrue ≠ taken → wp code I E body Q scope s.advance)
    (hskip : ∀ v target, s.registers.get? condition = some v → v.isTrue = taken →
      ∀ u stop after, body.Yields (s.next + 1) scope u stop after →
      Q u after { s with next := target }) : wp code I E (skippedBy jump body) Q scope s := by
  refine wp_skippedBy hI ?_ ?_
  · intro target t fault ht
    rcases fault_of_execute ht with he | ⟨_, line, he⟩
    · exact hE target fault he
    · -- A jump prints nothing.
      obtain ⟨v, _, hv⟩ := hjump _ _ _ he
      split at hv <;> cases hv
  · intro target t ht
    obtain ⟨v, hv, ⟨hcond, rfl⟩ | ⟨hcond, rfl⟩⟩ := hjump.moves ht
    · exact Or.inr ⟨rfl, hskip v target hv hcond⟩
    · exact Or.inl ⟨rfl, henter v hv hcond⟩

theorem branches_jumpIf (condition : Register) : Branches (.jumpIf condition) condition true := by
  intro target rs effect he
  exact Instruction.effect_jumpIf he

theorem branches_jumpUnless (condition : Register) :
    Branches (.jumpUnless condition) condition false := by
  intro target rs effect he
  obtain ⟨v, hv, rfl⟩ := Instruction.effect_jumpUnless he
  refine ⟨v, hv, ?_⟩
  cases v.isTrue <;> rfl

/-- What every instruction of a piece keeps, the piece keeps. It may speak about the scope that the
piece leaves, which is known before the run. -/
theorem wp_keeping {x : Emit α} {Q : α → Scope → State → Prop} {P : Scope → State → Prop}
    (h : wp code I E x Q scope s)
    (hP : ∀ a u v i, x s.next scope = .ok a → i ∈ a.code → code[u.next]? = some i → P a.scope u →
      Step code u v → P a.scope v)
    (hs : ∀ a, x s.next scope = .ok a → P a.scope s) :
    wp code I E x (fun v after t => Q v after t ∧ P after t) scope s := by
  -- A state on the way stands at an instruction of the piece, which keeps `P`.
  intro a ha hp
  refine ((h a ha hp).keeping ?_ (hs a ha)).mono (fun u hu => hu.1) (fun _ _ hf => hf) ?_
  · rintro u v ⟨hle, hlt, _⟩ hPu hstep
    obtain ⟨i, him, hi⟩ := hp.mem hle hlt
    exact hP a u v i ha him hi hPu hstep
  · rintro t ⟨⟨hn, hQ⟩, hPt⟩
    exact ⟨hn, hQ, hPt⟩

/-- A piece leaves a register as it is that none of its instructions names as its destination. -/
theorem wp_frame {x : Emit α} {Q : α → Scope → State → Prop}
    {D : Scope → Register → Prop} (h : wp code I E x Q scope s)
    (hD : ∀ a, x s.next scope = .ok a → ∀ i ∈ a.code, ∀ r, i.dest? = some r → D a.scope r) :
    wp code I E x (fun v after t => Q v after t ∧
      ∀ r, ¬ D after r → t.registers.get? r = s.registers.get? r) scope s := by
  refine wp_keeping h ?_ (fun _ _ _ _ => rfl)
  intro a u v i ha him hi hPu hstep r hr
  have hne : i.dest? ≠ some r := fun e => hr (hD a ha i him r e)
  rw [hstep.get?_of_ne_dest hi hne, hPu r hr]

theorem wp_checkIndex {index : Operand} {Q : Unit → Scope → State → Prop} (h : Q () scope s) :
    wp code I E (Lowering.checkIndex index) Q scope s := by
  unfold Lowering.checkIndex
  split
  · exact wp_pure h
  · exact wp_pure h
  · exact wp_fail

theorem wp_checkContainer {operand : Operand} {Q : Unit → Scope → State → Prop} (h : Q () scope s) :
    wp code I E (Lowering.checkContainer operand) Q scope s := by
  unfold Lowering.checkContainer
  split
  · exact wp_pure h
  · exact wp_pure h
  · exact wp_pure h
  · exact wp_fail

/-- A variable that has a register keeps it. -/
theorem wp_target {name : String} {value b : Operand} {Q : Register → Scope → State → Prop}
    (h : Q b.register scope s) : wp code I E (Lowering.target name value (some b)) Q scope s := by
  obtain ⟨register, kind⟩ := b
  cases kind with
  | none => exact wp_pure h
  | some held =>
    simp only [Lowering.target]
    split
    · exact wp_pure h
    · split
      · exact wp_pure h
      · exact wp_fail

/-- One instruction into a fresh register. -/
theorem wp_into {i : Register → Instruction} {kind : Option Kind}
    {Q : Operand → Scope → State → Prop} (hI : code[s.next]? = some (i scope.registers) → I s)
    (hE : ∀ fault, (i scope.registers).effect s.registers = .error fault →
      E (i scope.registers) fault)
    (hQ : ∀ effect, (i scope.registers).effect s.registers = .ok effect →
      ∃ v, effect = .write scope.registers v ∧
        Q ⟨scope.registers, kind⟩ { scope with registers := scope.registers + 1 }
          (s.wrote scope.registers v)) : wp code I E (Lowering.into i kind) Q scope s := by
  refine wp_bind (wp_fresh (wp_bind (wp_write hI hE ?_)))
  intro effect he
  obtain ⟨v, hw, hv⟩ := hQ effect he
  exact ⟨_, v, hw, wp_pure hv⟩

end Emit

/-! ## Programs -/

namespace Lowering

open Emit

variable {code : List Instruction} {I : State → Prop} {E : Instruction → Fault → Prop} {start : Nat}
  {scope : Scope}

/-- The code of a program is that of its first statement followed by that of the rest. -/
theorem statements_cons {st : Statement} {rest : Program} {all : Emitted Unit}
    (h : statements start scope (st :: rest) = .ok all) :
    ∃ first others, expr st.expr start scope = .ok first ∧
      statements (start + first.code.length) first.scope rest = .ok others ∧
      all = ⟨(), first.code ++ others.code, others.scope⟩ := by
  rw [statements] at h
  split at h
  · cases h
  · rename_i first hfirst
    split at h
    · cases h
    · rename_i others hothers
      exact ⟨first, others, hfirst, hothers, (Except.ok.inj h).symm⟩

/-- The code of a program is that of its first statements followed by that of the rest. -/
theorem statements_append {p rest : Program} {all : Emitted Unit}
    (h : statements start scope (p ++ rest) = .ok all) :
    ∃ first others, statements start scope p = .ok first ∧
      statements (start + first.code.length) first.scope rest = .ok others ∧
      all = ⟨(), first.code ++ others.code, others.scope⟩ := by
  induction p generalizing start scope all with
  | nil => exact ⟨⟨(), [], scope⟩, all, rfl, h, rfl⟩
  | cons st p ih =>
    obtain ⟨a, b, ha, hb, rfl⟩ := statements_cons h
    obtain ⟨first, others, hfirst, hothers, rfl⟩ := ih hb
    refine ⟨⟨(), a.code ++ first.code, first.scope⟩, others, ?_, ?_, ?_⟩
    · rw [statements, ha]
      simp only [hfirst]
    · rwa [List.length_append, ← Nat.add_assoc]
    · simp

/-- One more statement. -/
theorem statements_snoc {p : Program} {st : Statement} {first : Emitted Unit}
    {last : Emitted Operand} (hp : statements start scope p = .ok first)
    (hst : expr st.expr (start + first.code.length) first.scope = .ok last) :
    statements start scope (p ++ [st]) = .ok ⟨(), first.code ++ last.code, last.scope⟩ := by
  induction p generalizing start scope first with
  | nil =>
    obtain rfl := Except.ok.inj hp
    rw [List.nil_append, statements, show expr st.expr start scope = .ok last from hst]
    simp [statements]
  | cons head p ih =>
    obtain ⟨a, b, ha, hb, rfl⟩ := statements_cons hp
    rw [List.length_append, ← Nat.add_assoc] at hst
    rw [List.cons_append, statements, ha]
    simp only [ih hb hst, List.append_assoc]

/-- The code of a program that lowers is that of its statements. -/
theorem statements_of_lower {p : Program} {routine : Routine} (h : p.lower = .ok routine) :
    ∃ all, statements 0 .empty p = .ok all ∧ routine = ⟨all.code, all.scope.registers⟩ := by
  unfold Program.lower at h
  cases hall : statements 0 .empty p with
  | error e =>
    rw [hall] at h
    cases h
  | ok all =>
    rw [hall] at h
    exact ⟨all, rfl, (Except.ok.inj h).symm⟩

/-- The code of the first statements of a program that lowers, and that of the rest behind it. -/
theorem placed_of_lower {earlier later : Program} {first : Emitted Unit} {routine : Routine}
    (h : Program.lower (earlier ++ later) = .ok routine)
    (hfirst : statements 0 .empty earlier = .ok first) :
    Placed routine.code 0 first.code ∧
      ∃ others, statements first.code.length first.scope later = .ok others ∧
        Placed routine.code first.code.length others.code := by
  obtain ⟨all, hall, rfl⟩ := statements_of_lower h
  have hplaced : Placed all.code 0 all.code := fun k i hk => by rwa [Nat.zero_add]
  obtain ⟨a, others, ha, hothers, rfl⟩ := statements_append hall
  obtain rfl := Except.ok.inj (hfirst.symm.trans ha)
  rw [Nat.zero_add] at hothers
  have hbehind := hplaced.right
  rw [Nat.zero_add] at hbehind
  exact ⟨hplaced.left, others, hothers, hbehind⟩

/-- The code of all statements is there. -/
theorem placed_statements {p : Program} {all : Emitted Unit} {routine : Routine}
    (h : p.lower = .ok routine) (hall : statements 0 .empty p = .ok all) :
    Placed routine.code 0 all.code := by
  rw [← List.append_nil p] at h
  exact (placed_of_lower h hall).1

/-- Statements one after the other. `J` speaks about the statements that are still to come. -/
theorem statements_leads {J : Program → Scope → State → Prop}
    (hJ : ∀ st rest scope s, J (st :: rest) scope s →
      wp code I E (expr st.expr) (fun _ => J rest) scope s)
    {p : Program} {s : State} {all : Emitted Unit} (h : statements s.next scope p = .ok all)
    (hp : Placed code s.next all.code) (hs : J p scope s) :
    Leads code (fun u => u.next < s.next + all.code.length ∧ I u) E
      (fun t => t.next = s.next + all.code.length ∧ J [] all.scope t) s := by
  -- On the statements: each leaves the run at the start of the next one, with `J` for the rest.
  induction p generalizing s scope all with
  | nil =>
    obtain rfl := Except.ok.inj h
    exact .here ⟨rfl, hs⟩
  | cons st rest ih =>
    obtain ⟨first, others, hfirst, hothers, rfl⟩ := statements_cons h
    have hhead := hJ st rest scope s hs first hfirst hp.left
    simp only [List.length_append]
    refine hhead.trans ?_ (fun _ _ hf => hf) ?_
    · rintro u ⟨_, hlt, hI⟩
      exact ⟨by omega, hI⟩
    · rintro t ⟨hn, ht⟩
      rw [← hn] at hothers
      refine (ih hothers (hn ▸ hp.right) ht).mono ?_ (fun _ _ hf => hf) ?_
      · rintro u ⟨hlt, hI⟩
        exact ⟨by omega, hI⟩
      · rintro u ⟨hu, hQ⟩
        exact ⟨by omega, hQ⟩

end Lowering

/-- The run of a program that lowers, statement by statement. -/
theorem Program.leads {I : State → Prop} {E : Instruction → Fault → Prop}
    {J : Program → Scope → State → Prop} {p : Program} {routine : Routine}
    {all : Emitted Unit} (sink : Sink) (hall : Lowering.statements 0 .empty p = .ok all)
    (hr : routine = ⟨all.code, all.scope.registers⟩)
    (hJ : ∀ st rest scope s, J (st :: rest) scope s →
      Emit.wp routine.code I E (Lowering.expr st.expr) (fun _ => J rest) scope s)
    (hs : J p .empty (routine.start sink)) :
    Leads routine.code I E (fun t => t.next = routine.code.length ∧ J [] all.scope t)
      (routine.start sink) := by
  subst hr
  have hplaced : Placed all.code 0 all.code := fun k i hk => by rwa [Nat.zero_add]
  refine (Lowering.statements_leads hJ hall hplaced hs).mono (fun _ hu => hu.2)
    (fun _ _ hf => hf) ?_
  rintro t ⟨hn, ht⟩
  exact ⟨by rw [hn]; exact Nat.zero_add _, ht⟩

end LineScript
