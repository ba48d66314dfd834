import LineScript.Machine.Run
import Mathlib.Data.Nat.Init
import Mathlib.Logic.Relation

/-!
# Traces of a run

`State.Step` is one instruction carried out without a fault, and `State.Reaches` is any number of
them. Whatever `State.runFor` returns is described by these two (`runFor_spec`), so a statement
about every run is one about every state reached and every fault met on the way.

`State.Leads` is the judgement that the proofs about code are written in: from a state, the run
meets a wanted state, or it ends before that in a fault that is allowed. Every state passed on the
way satisfies an invariant. `Leads.passes` and `Leads.fault` turn the judgement back into facts
about `Reaches`.
-/

set_option autoImplicit false

namespace LineScript

namespace State

/-! ## One instruction -/

/-- One instruction is carried out without a fault. -/
def Step (code : List Instruction) (s t : State) : Prop :=
  ∃ i, code[s.next]? = some i ∧ s.advance.execute i = (t, none)

/-- The states a run passes. -/
abbrev Reaches (code : List Instruction) : State → State → Prop := Relation.ReflTransGen (Step code)

@[simp]
theorem advance_registers (s : State) : s.advance.registers = s.registers := rfl

@[simp]
theorem advance_next (s : State) : s.advance.next = s.next + 1 := rfl

@[simp]
theorem advance_sink (s : State) : s.advance.sink = s.sink := rfl

/-- An instruction is carried out exactly when its effect is defined and can be performed. -/
theorem execute_eq_none_iff {s t : State} {i : Instruction} :
    s.execute i = (t, none) ↔
      ∃ effect, i.effect s.registers = .ok effect ∧ s.perform effect = (t, none) := by
  unfold execute
  constructor
  · intro h
    split at h
    · simp at h
    · rename_i effect he
      exact ⟨effect, he, h⟩
  · rintro ⟨effect, he, hp⟩
    rw [he]
    exact hp

/-- Only printing fails after its effect was computed. -/
theorem fault_of_execute {s t : State} {i : Instruction} {fault : Fault}
    (h : s.execute i = (t, some fault)) :
    i.effect s.registers = .error fault ∨
      fault = .outputClosed ∧ ∃ line, i.effect s.registers = .ok (.print line) := by
  unfold execute at h
  split at h
  · rename_i f he
    obtain rfl : f = fault := by simpa using congrArg Prod.snd h
    exact Or.inl he
  · rename_i effect he
    cases effect with
    | print line =>
      simp only [perform] at h
      have hf := congrArg Prod.snd h
      split at hf
      · simp at hf
      · simp only [Option.some.injEq] at hf
        exact Or.inr ⟨hf.symm, line, he⟩
    | _ => simp [perform] at h

/-- There is only one way on from a state. -/
theorem Step.unique {code : List Instruction} {s t u : State} (ht : Step code s t)
    (hu : Step code s u) : t = u := by
  -- Both steps carry out the instruction at the index of `s`.
  obtain ⟨i, hi, hit⟩ := ht
  obtain ⟨j, hj, hju⟩ := hu
  obtain rfl : i = j := Option.some.inj (hi.symm.trans hj)
  exact congrArg Prod.fst (hit.symm.trans hju)

/-- Behind the last instruction nothing moves. -/
theorem Reaches.eq_of_none {code : List Instruction} {s t : State} (h : Reaches code s t)
    (hs : code[s.next]? = none) : s = t := by
  rcases Relation.ReflTransGen.cases_head h with rfl | ⟨u, ⟨i, hi, _⟩, _⟩
  · rfl
  · rw [hs] at hi
    cases hi

/-! ## Whole runs -/

/-- How a run ends, in terms of the states it passes. -/
theorem runFor_spec {code : List Instruction} {steps : Nat} {s t : State} {ending : Ending}
    (h : runFor code steps s = (t, ending)) :
    match ending with
    | .finished => Reaches code s t ∧ code[t.next]? = none
    | .stopped => Reaches code s t
    | .failed index opcode fault =>
      ∃ u i, Reaches code s u ∧ u.next = index ∧ code[u.next]? = some i ∧ i.opcode = opcode ∧
        u.advance.execute i = (t, some fault) := by
  -- On the steps that are left. Whatever the rest of the run ends in, one more step in front of it
  -- is one more step of `Reaches`.
  induction steps generalizing s with
  | zero =>
    rw [runFor] at h
    split at h
    · rename_i hn
      obtain ⟨rfl, rfl⟩ := Prod.mk.inj h
      exact ⟨.refl, hn⟩
    · obtain ⟨rfl, rfl⟩ := Prod.mk.inj h
      exact .refl
  | succ steps ih =>
    rw [runFor] at h
    split at h
    · rename_i hn
      obtain ⟨rfl, rfl⟩ := Prod.mk.inj h
      exact ⟨.refl, hn⟩
    · rename_i i hi
      split at h
      · rename_i u hu
        have hstep : Step code s u := ⟨i, hi, hu⟩
        have hrest := ih h
        cases ending with
        | finished => exact ⟨.head hstep hrest.1, hrest.2⟩
        | stopped => exact .head hstep hrest
        | failed index opcode fault =>
          obtain ⟨v, j, hv, hrest⟩ := hrest
          exact ⟨v, j, .head hstep hv, hrest⟩
      · rename_i u fault hu
        obtain ⟨rfl, rfl⟩ := Prod.mk.inj h
        exact ⟨s, i, .refl, rfl, hi, rfl, hu⟩

/-- A fault behind a state that a run passes ends the run, if the run is long enough. -/
theorem runFor_of_fault {code : List Instruction} {s t u : State} {i : Instruction}
    {fault : Fault} (h : Reaches code s t) (hi : code[t.next]? = some i)
    (hf : t.advance.execute i = (u, some fault)) :
    ∃ steps, runFor code steps s = (u, .failed t.next i.opcode fault) := by
  -- From the front, as the run itself goes.
  induction h using Relation.ReflTransGen.head_induction_on with
  | refl => exact ⟨1, by simp only [runFor, hi, hf]⟩
  | head hstep _ ih =>
    obtain ⟨j, hj, hstep⟩ := hstep
    obtain ⟨steps, hrun⟩ := ih
    exact ⟨steps + 1, by simp only [runFor, hj, hstep, hrun]⟩

end State

namespace Routine

open State

/-- A run that succeeds has passed the state behind its last instruction; that state is all it
leaves. -/
theorem run_ok {r : Routine} {limit : Option Nat} {sink : Sink} {registers : Registers}
    (h : (r.run limit sink).result = .ok registers) :
    ∃ t, Reaches r.code (r.start sink) t ∧ r.code[t.next]? = none ∧ t.registers = registers ∧
      (r.run limit sink).output = t.sink.taken.toList := by
  simp only [run] at h ⊢
  rcases hr : runFor r.code (limit.getD r.unlimited) (r.start sink) with ⟨t, ending⟩
  rw [hr] at h
  cases ending with
  | finished =>
    obtain ⟨hreach, hnone⟩ := runFor_spec hr
    exact ⟨t, hreach, hnone, Except.ok.inj h, rfl⟩
  | failed index opcode fault => cases h
  | stopped => cases h

/-- A run that fails at an instruction has passed a state in which that instruction fails. -/
theorem run_failed {r : Routine} {limit : Option Nat} {sink : Sink} {index : Nat} {opcode : String}
    {fault : Fault} (h : (r.run limit sink).result = .error (.instruction index opcode fault)) :
    ∃ u t i, Reaches r.code (r.start sink) u ∧ u.next = index ∧ r.code[u.next]? = some i ∧
      i.opcode = opcode ∧ u.advance.execute i = (t, some fault) := by
  simp only [run] at h
  rcases hr : runFor r.code (limit.getD r.unlimited) (r.start sink) with ⟨t, ending⟩
  rw [hr] at h
  cases ending with
  | finished => cases h
  | stopped => cases h
  | failed index' opcode' fault' =>
    obtain ⟨rfl, rfl, rfl⟩ : index' = index ∧ opcode' = opcode ∧ fault' = fault := by
      simpa using Except.error.inj h
    obtain ⟨u, i, hu⟩ := runFor_spec hr
    exact ⟨u, t, i, hu⟩

/-- A fault behind a state that a run passes is the result of a run with a limit that reaches so
far. -/
theorem run_of_fault {r : Routine} {sink : Sink} {t u : State} {i : Instruction} {fault : Fault}
    (h : Reaches r.code (r.start sink) t) (hi : r.code[t.next]? = some i)
    (hf : t.advance.execute i = (u, some fault)) :
    ∃ limit, (r.run limit sink).result = .error (.instruction t.next i.opcode fault) := by
  obtain ⟨steps, hrun⟩ := runFor_of_fault h hi hf
  refine ⟨some steps, ?_⟩
  simp only [run, Option.getD_some, hrun]

end Routine

namespace State

/-! ## Leading to a state -/

/-- From a state, the run passes states in `I` until it meets one in `Q`, unless an instruction
fails before; then instruction and fault are in `E`. -/
inductive Leads (code : List Instruction) (I : State → Prop) (E : Instruction → Fault → Prop)
    (Q : State → Prop) : State → Prop
  | here {s : State} (h : Q s) : Leads code I E Q s
  | step {s : State} {i : Instruction} (hi : code[s.next]? = some i) (hI : I s)
      (hE : ∀ t fault, s.advance.execute i = (t, some fault) → E i fault)
      (hnext : ∀ t, s.advance.execute i = (t, none) → Leads code I E Q t) : Leads code I E Q s

namespace Leads

variable {code : List Instruction} {I J : State → Prop} {E F : Instruction → Fault → Prop}
  {Q R : State → Prop} {s t : State}

/-- Two stretches one after the other. -/
theorem trans (h : Leads code I E Q s) (hI : ∀ u, I u → J u) (hE : ∀ i fault, E i fault → F i fault)
    (hQ : ∀ u, Q u → Leads code J F R u) : Leads code J F R s := by
  induction h with
  | here h => exact hQ _ h
  | step hi hs hE' _ ih => exact .step hi (hI _ hs) (fun t f ht => hE _ _ (hE' t f ht)) ih

theorem mono (h : Leads code I E Q s) (hI : ∀ u, I u → J u) (hE : ∀ i fault, E i fault → F i fault)
    (hQ : ∀ u, Q u → R u) : Leads code J F R s :=
  h.trans hI hE (fun u hu => .here (hQ u hu))

/-- What every step out of the invariant keeps is kept to the end. -/
theorem keeping {P : State → Prop} (h : Leads code I E Q s)
    (hP : ∀ u v, I u → P u → Step code u v → P v) (hs : P s) :
    Leads code (fun u => I u ∧ P u) E (fun u => Q u ∧ P u) s := by
  induction h with
  | here h => exact .here ⟨h, hs⟩
  | step hi hIs hE _ ih =>
    exact .step hi ⟨hIs, hs⟩ hE (fun t ht => ih t ht (hP _ t hIs hs ⟨_, hi, ht⟩))

/-- A state reached on the way is in the invariant and has an instruction to go on with, or it lies
behind a state that was wanted. -/
theorem passes (h : Leads code I E Q s) (hr : Reaches code s t) :
    (I t ∧ code[t.next]? ≠ none) ∨ ∃ u, Q u ∧ Reaches code s u ∧ Reaches code u t := by
  -- On the judgement: where it takes a step, the run takes the same one, for there is no other.
  induction h with
  | here h => exact Or.inr ⟨_, h, .refl, hr⟩
  | @step s i hi hI hE hnext ih =>
    rcases Relation.ReflTransGen.cases_head hr with rfl | ⟨u, ⟨j, hj, hju⟩, hut⟩
    · exact Or.inl ⟨hI, by simp [hi]⟩
    · obtain rfl : i = j := Option.some.inj (hi.symm.trans hj)
      rcases ih u hju hut with hIt | ⟨v, hQ, hv, hvt⟩
      · exact Or.inl hIt
      · exact Or.inr ⟨v, hQ, .head ⟨i, hj, hju⟩ hv, hvt⟩

/-- A run that ends behind the code has met a state that was wanted; if none of those has an
instruction to go on with, it ends in one. -/
theorem finishes (h : Leads code I E Q s) (hr : Reaches code s t) (ht : code[t.next]? = none)
    (hQ : ∀ u, Q u → code[u.next]? = none) : Q t := by
  rcases h.passes hr with ⟨_, hsome⟩ | ⟨u, hu, _, hut⟩
  · exact absurd ht hsome
  · exact hut.eq_of_none (hQ u hu) ▸ hu

/-- A fault met on the way is allowed, or lies behind a state that was wanted. -/
theorem fault {u v : State} {i : Instruction} {f : Fault} (h : Leads code I E Q s)
    (hr : Reaches code s u) (hi : code[u.next]? = some i) (hf : u.advance.execute i = (v, some f)) :
    E i f ∨ ∃ w, Q w ∧ Reaches code s w ∧ Reaches code w u := by
  -- As for `passes`; the fault is met at the first state or behind it.
  induction h with
  | here h => exact Or.inr ⟨_, h, .refl, hr⟩
  | @step s j hj hI hE hnext ih =>
    rcases Relation.ReflTransGen.cases_head hr with rfl | ⟨w, ⟨k, hk, hkw⟩, hwu⟩
    · obtain rfl : i = j := Option.some.inj (hi.symm.trans hj)
      exact Or.inl (hE v f hf)
    · obtain rfl : k = j := Option.some.inj (hk.symm.trans hj)
      rcases ih w hkw hwu with hE' | ⟨x, hQ, hx, hxu⟩
      · exact Or.inl hE'
      · exact Or.inr ⟨x, hQ, .head ⟨k, hk, hkw⟩ hx, hxu⟩

end Leads

end State

end LineScript
