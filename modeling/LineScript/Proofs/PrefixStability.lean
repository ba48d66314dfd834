import LineScript.Proofs.Halting
import Mathlib.Logic.Relation

/-!
# Code in front is not changed by code behind

The statements of a program are lowered one behind the other, so the code of its first statements is
the head of the code of all of them. No jump of the head leads behind its end. As long as a run is
inside of the head it therefore carries out the same instructions whatever follows, and where the
run of the head alone finishes, the run of the whole stands at the first instruction of the rest.

The two runs do not pass equal states: the register file of the whole is longer from the start.
`State.Alike` is what they keep in common: the index, the sink and the contents of every register.
-/

set_option autoImplicit false

namespace LineScript

/-! ## Registers with the same contents -/

section Contents

variable {rs qs : Registers}

theorem Registers.read_congr (h : ∀ q, rs.get? q = qs.get? q) (r : Register) :
    rs.read r = qs.read r := by
  unfold read
  rw [h]

theorem Registers.readAll_congr (h : ∀ q, rs.get? q = qs.get? q) (registers : List Register) :
    rs.readAll registers = qs.readAll registers := by
  induction registers with
  | nil => rfl
  | cons r rest ih => rw [readAll, readAll, read_congr h, ih]

/-- What an instruction does depends on nothing but the contents of registers. -/
theorem Instruction.effect_congr (h : ∀ q, rs.get? q = qs.get? q) (i : Instruction) :
    i.effect rs = i.effect qs := by
  cases i <;> simp only [effect, Registers.read_congr h, Registers.readAll_congr h]

end Contents

namespace State

variable {code rest : List Instruction} {steps : Nat} {s t u : State} {ending : Ending}

/-- The same index, the same sink, and the same contents of every register. -/
structure Alike (s t : State) : Prop where
  next : s.next = t.next
  sink : s.sink = t.sink
  contents : ∀ q, s.registers.get? q = t.registers.get? q

theorem Alike.advance (h : Alike s t) : Alike s.advance t.advance where
  next := congrArg (· + 1) h.next
  sink := h.sink
  contents := h.contents

/-- Alike states stay alike, whatever is done to both. -/
theorem Alike.perform (h : Alike s t) (effect : Effect) :
    (s.perform effect).2 = (t.perform effect).2 ∧
      Alike (s.perform effect).1 (t.perform effect).1 := by
  cases effect with
  | write r v =>
    refine ⟨rfl, h.next, h.sink, fun q => ?_⟩
    change (s.registers.set r v).get? q = (t.registers.set r v).get? q
    rw [Registers.get?_set, Registers.get?_set, h.contents]
  | jump target => exact ⟨rfl, rfl, h.sink, h.contents⟩
  | proceed => exact ⟨rfl, h⟩
  | print line =>
    refine ⟨?_, h.next, ?_, h.contents⟩
    · simp only [State.perform, h.sink]
    · simp only [State.perform, h.sink]

theorem Alike.execute (h : Alike s t) (i : Instruction) :
    (s.execute i).2 = (t.execute i).2 ∧ Alike (s.execute i).1 (t.execute i).1 := by
  unfold State.execute
  rw [Instruction.effect_congr h.contents]
  cases i.effect t.registers with
  | error fault => exact ⟨rfl, h⟩
  | ok effect => exact h.perform effect

/-- From alike states the same instruction comes to the same. -/
theorem Alike.execute_eq {i : Instruction} {fault : Option Fault} (h : Alike s t)
    (hs : s.execute i = (u, fault)) : ∃ v, t.execute i = (v, fault) ∧ Alike u v := by
  obtain ⟨hfault, halike⟩ := h.execute i
  rw [hs] at hfault halike
  exact ⟨(t.execute i).1, Prod.ext rfl hfault.symm, halike⟩

/-! ## Runs of the head -/

/-- No jump leads behind the end. -/
def Bounded (code : List Instruction) : Prop :=
  ∀ (k t : Nat) (i : Instruction), code[k]? = some i → i.target? = some t → t ≤ code.length

theorem Step.le_length (hb : Bounded code) (h : Step code s t) : t.next ≤ code.length := by
  obtain ⟨i, hi, ht⟩ := h
  rcases Step.next ⟨i, hi, ht⟩ hi with hn | hn
  · have hlt : s.next < code.length := (List.getElem?_eq_some_iff.1 hi).1
    omega
  · exact hb _ _ i hi hn

/-- An instruction of the head is one of the whole. -/
theorem getElem?_of_head {k : Nat} {i : Instruction} (h : code[k]? = some i) :
    (code ++ rest)[k]? = some i := by
  rw [List.getElem?_append_left (List.getElem?_eq_some_iff.1 h).1, h]

/-- A step inside of the head is one of the whole. -/
theorem Alike.step (rest : List Instruction) (h : Alike s t) (hs : Step code s u) :
    ∃ v, Step (code ++ rest) t v ∧ Alike u v := by
  obtain ⟨i, hi, hu⟩ := hs
  obtain ⟨v, hv, halike⟩ := h.advance.execute_eq hu
  rw [h.next] at hi
  exact ⟨v, ⟨i, getElem?_of_head hi, hv⟩, halike⟩

/-- How the run of the head shows in the run of the whole: it ends in the same fault or at the same
limit, or where the head ends the rest goes on with the steps that are left. -/
theorem runFor_head (rest : List Instruction) (hb : Bounded code) (hs : s.next ≤ code.length)
    (h : Alike s t) (hrun : runFor code steps s = (u, ending)) :
    ∃ v, Alike u v ∧ (ending ≠ .finished → runFor (code ++ rest) steps t = (v, ending)) ∧
      (ending = .finished → Reaches (code ++ rest) t v ∧ v.next = code.length ∧
        ∃ left, runFor (code ++ rest) steps t = runFor (code ++ rest) left v) := by
  have hend : ∀ {left : Nat} {s t : State}, s.next ≤ code.length →
      Alike s t → code[s.next]? = none →
      Reaches (code ++ rest) t t ∧ t.next = code.length ∧
      ∃ more, runFor (code ++ rest) left t = runFor (code ++ rest) more t := by
    intro left s t hs h hn
    exact ⟨.refl, h.next ▸ Nat.le_antisymm hs (List.getElem?_eq_none_iff.1 hn), left, rfl⟩
  -- On the steps of the head; each is one of the whole.
  induction steps generalizing s t with
  | zero =>
    cases hi : code[s.next]? with
    | none =>
      rw [runFor_of_none hi] at hrun
      obtain ⟨rfl, rfl⟩ := Prod.mk.inj hrun
      exact ⟨t, h, fun hne => absurd rfl hne, fun _ => hend hs h hi⟩
    | some i =>
      rw [runFor, hi] at hrun
      obtain ⟨rfl, rfl⟩ := Prod.mk.inj hrun
      refine ⟨t, h, fun _ => ?_, fun heq => Ending.noConfusion heq⟩
      rw [runFor, getElem?_of_head (h.next ▸ hi)]
  | succ steps ih =>
    rcases next_cases code s with hn | ⟨w, hw⟩ | ⟨i, w, fault, hi, hf⟩
    · rw [runFor_of_none hn] at hrun
      obtain ⟨rfl, rfl⟩ := Prod.mk.inj hrun
      exact ⟨t, h, fun hne => absurd rfl hne, fun _ => hend hs h hn⟩
    · rw [runFor_of_step hw] at hrun
      obtain ⟨x, hx, halike⟩ := h.step rest hw
      obtain ⟨v, hv, hfails, hfinishes⟩ := ih (hw.le_length hb) halike hrun
      rw [runFor_of_step hx]
      exact ⟨v, hv, hfails, fun heq => ⟨.head hx (hfinishes heq).1, (hfinishes heq).2⟩⟩
    · rw [runFor_of_execute_fault hi hf] at hrun
      obtain ⟨rfl, rfl⟩ := Prod.mk.inj hrun
      obtain ⟨v, hv, halike⟩ := h.advance.execute_eq hf
      refine ⟨v, halike, fun _ => ?_, fun heq => Ending.noConfusion heq⟩
      rw [h.next] at hi ⊢
      exact runFor_of_execute_fault (getElem?_of_head hi) hv

/-! ## Output -/

/-- What was printed stays printed. -/
theorem taken_of_execute (s : State) (i : Instruction) :
    s.sink.taken.toList <+: (s.execute i).1.sink.taken.toList := by
  unfold execute
  split
  · exact List.prefix_refl _
  · rename_i effect _
    cases effect with
    | print line =>
      simp only [perform, Sink.take_eq_append]
      exact List.prefix_append _ _
    | _ => exact List.prefix_refl _

theorem taken_of_runFor (code : List Instruction) (steps : Nat) (s : State) :
    s.sink.taken.toList <+: (runFor code steps s).1.sink.taken.toList := by
  induction steps generalizing s with
  | zero =>
    rw [runFor]
    split <;> exact List.prefix_refl _
  | succ steps ih =>
    rcases next_cases code s with hn | ⟨t, ht⟩ | ⟨i, t, fault, hi, hf⟩
    · have hfinal : runFor code (steps + 1) s = (s, .finished) := runFor_of_none hn
      exact hfinal ▸ List.prefix_refl _
    · rw [runFor_of_step ht]
      obtain ⟨i, _, hi⟩ := ht
      have hstep := taken_of_execute s.advance i
      rw [hi] at hstep
      exact hstep.trans (ih t)
    · rw [runFor_of_execute_fault hi hf]
      have hstep := taken_of_execute s.advance i
      rwa [hf] at hstep

/-- A run through forward code stands at an index in one state only. -/
theorem Reaches.unique (hf : Forward code) (ht : Reaches code s t) (hu : Reaches code s u)
    (hn : t.next = u.next) : t = u := by
  have honly : Relator.RightUnique (Step code) := fun _ _ _ h g => h.unique g
  rcases Relation.ReflTransGen.total_of_right_unique honly ht hu with htu | hut
  · exact Reaches.eq_of_next_eq hf htu (Nat.le_of_eq hn.symm)
  · exact (Reaches.eq_of_next_eq hf hut (Nat.le_of_eq hn)).symm

end State

namespace Routine

open State

variable {r : Routine} {limit : Option Nat} {sink : Sink} {t : State}

theorem run_of_finished
    (h : runFor r.code (limit.getD r.unlimited) (r.start sink) = (t, .finished)) :
    r.run limit sink = ⟨.ok t.registers, t.sink.taken.toList⟩ := by
  simp only [run, h]

theorem run_of_failed {index : Nat} {opcode : String} {fault : Fault}
    (h : runFor r.code (limit.getD r.unlimited) (r.start sink) = (t, .failed index opcode fault)) :
    r.run limit sink = ⟨.error (.instruction index opcode fault), t.sink.taken.toList⟩ := by
  simp only [run, h]

theorem run_of_stopped {n : Nat} (h : runFor r.code n (r.start sink) = (t, .stopped)) :
    r.run (some n) sink = ⟨.error (.stepLimit n), t.sink.taken.toList⟩ := by
  simp only [run, Option.getD_some, h]

/-- Without a limit, more steps than needed make no difference to code that only jumps forward. -/
theorem runFor_unlimited {head r : Routine} (hf : Forward head.code)
    (hle : head.code.length ≤ r.code.length) (limit : Option Nat) (s : State) :
    runFor head.code (limit.getD r.unlimited) s =
      runFor head.code (limit.getD head.unlimited) s := by
  cases limit with
  | some n => rw [Option.getD_some, Option.getD_some]
  | none =>
    rw [Option.getD_none, Option.getD_none]
    rcases hrun : runFor head.code head.unlimited s with ⟨t, ending⟩
    have hend : ending ≠ .stopped := runFor_ne_stopped hf (Nat.le_add_right _ _) hrun
    exact runFor_of_le hrun hend (Nat.add_le_add_right hle _)

end Routine

namespace Program

open State Lowering

/-- What the head of a program lowers to. -/
theorem lower_head {p q : Program} {routine : Routine} (h : Program.lower (p ++ q) = .ok routine) :
    ∃ head rest, p.lower = .ok head ∧ routine.code = head.code ++ rest ∧
      head.registers ≤ routine.registers := by
  obtain ⟨all, hall, rfl⟩ := statements_of_lower h
  obtain ⟨first, others, hfirst, hothers, rfl⟩ := statements_append hall
  have hwf : first.scope.WF := (statements_grown (.refl Scope.empty_wf) hfirst).since.wf
  refine ⟨⟨first.code, first.scope.registers⟩, others.code, ?_, rfl, ?_⟩
  · rw [lower, hfirst]
    rfl
  · exact (statements_grown (.refl hwf) hothers).since.le

/-- **Programs are compiled and run from the front.** If a program compiles, so do its first
statements on their own, and their code is the head of the code of the whole. A run of the head that
fails, fails in the same way in the whole, with the same output. A run of the head that succeeds has
printed the first part of what the whole prints, and leaves in the registers what the whole finds in
them at the first instruction behind the head. -/
theorem runs_from_front (p q : Program) (routine : Routine)
    (h : Program.lower (p ++ q) = .ok routine) :
    ∃ head, p.lower = .ok head ∧ head.code <+: routine.code ∧ head.registers ≤ routine.registers ∧
      ∀ limit sink,
        (∀ e, (head.run limit sink).result = .error e →
          (routine.run limit sink).result = .error e ∧
          (routine.run limit sink).output = (head.run limit sink).output) ∧
        ∀ registers, (head.run limit sink).result = .ok registers →
          (head.run limit sink).output <+: (routine.run limit sink).output ∧
          (∃ t, Reaches routine.code (routine.start sink) t ∧ t.next = head.code.length) ∧
          ∀ t, Reaches routine.code (routine.start sink) t → t.next = head.code.length →
            t.sink.taken.toList = (head.run limit sink).output ∧
            ∀ r, t.registers.get? r = registers.get? r := by
  obtain ⟨head, rest, hhead, hcode, hregisters⟩ := lower_head h
  refine ⟨head, hhead, hcode ▸ List.prefix_append _ _, hregisters, fun limit sink => ?_⟩
  have hlength : head.code.length ≤ routine.code.length := by
    rw [hcode, List.length_append]
    omega
  have hbounded : Bounded head.code := fun k t i hi ht => (jump_bounds hhead hi ht).2
  have hstart : Alike (head.start sink) (routine.start sink) :=
    ⟨rfl, rfl, fun q => by simp [Routine.start]⟩
  rcases hrun : runFor head.code (limit.getD head.unlimited) (head.start sink) with ⟨u, ending⟩
  obtain ⟨v, halike, hfails, hfinishes⟩ := runFor_head rest hbounded (Nat.zero_le _) hstart
    ((Routine.runFor_unlimited (lower_forward hhead) hlength limit _).trans hrun)
  rw [← hcode] at hfails hfinishes
  have hsink : u.sink.taken.toList = v.sink.taken.toList := by rw [halike.sink]
  cases ending with
  | finished =>
    obtain ⟨hreach, hnext, left, hleft⟩ := hfinishes rfl
    rw [Routine.run_of_finished hrun]
    refine ⟨fun e he => ?_, fun registers hregs => ?_⟩
    · cases he
    · obtain rfl := Except.ok.inj hregs
      refine ⟨?_, ⟨v, hreach, hnext⟩, fun t ht htn => ?_⟩
      · rw [Routine.run, hleft, hsink]
        exact taken_of_runFor _ _ _
      · obtain rfl := Reaches.unique (lower_forward h) hreach ht (hnext.trans htn.symm)
        exact ⟨hsink.symm, fun r => (halike.contents r).symm⟩
  | failed index opcode fault =>
    rw [Routine.run_of_failed hrun,
      Routine.run_of_failed (hfails fun heq => Ending.noConfusion heq)]
    refine ⟨fun e he => ⟨he, hsink.symm⟩, fun registers hregs => ?_⟩
    cases hregs
  | stopped =>
    -- Only a given limit stops a run, and that is the same for both.
    cases limit with
    | none =>
      have hunlimited : head.code.length ≤ head.unlimited := Nat.le_add_right _ _
      exact absurd rfl (runFor_ne_stopped (lower_forward hhead) hunlimited hrun)
    | some n =>
      rw [Option.getD_some] at hrun hfails
      rw [Routine.run_of_stopped hrun,
        Routine.run_of_stopped (hfails fun heq => Ending.noConfusion heq)]
      refine ⟨fun e he => ⟨he, hsink.symm⟩, fun registers hregs => ?_⟩
      cases hregs

/-- `print("a")`, `x = 1`, `true or false`. The jump of the last line leads behind all code. -/
def jumpToEnd : Program :=
  [⟨.call "print" [.literal (.string "a")], default⟩,
    ⟨.binary (.ident "x") .assign (.literal (.number ⟨1, 0⟩)), default⟩,
    ⟨.binary (.literal (.bool true)) .or (.literal (.bool false)), default⟩]

/-- `print(x)`, `x / 0` -/
def printThenDivide : Program :=
  [⟨.call "print" [.ident "x"], default⟩,
    ⟨.binary (.ident "x") (.arith .divide) (.literal (.number ⟨0, 0⟩)), default⟩]

/-- With another program behind it the jump leads to the first instruction of that program, which
finds the variable in its register; the first line was printed before, and the division comes
last. -/
theorem runs_from_front_jumpToEnd :
    ∃ routine head registers,
      Program.lower (jumpToEnd ++ printThenDivide) = .ok routine ∧ jumpToEnd.lower = .ok head ∧
        head.code.length = 9 ∧ (head.run none (.new none)).result = .ok registers ∧
        registers.get? 3 = some (.number ⟨1, 0⟩) ∧
        (head.run none (.new none)).output <+: (routine.run none (.new none)).output ∧
        (routine.run none (.new none)).result =
          .error (.instruction 11 "Divide" (.numeric .divisionByZero)) ∧
        ∃ t, Reaches routine.code (routine.start (.new none)) t ∧ t.next = 9 ∧
          t.registers.get? 3 = some (.number ⟨1, 0⟩) := by
  have hlower : Program.lower (jumpToEnd ++ printThenDivide) =
      .ok ⟨[.load (.string "a") 0, .print [0], .load (.number ⟨1, 0⟩) 2, .copy 2 3,
        .load (.bool true) 4, .copy 4 5, .jumpIf 5 9, .load (.bool false) 6,
        .copy 6 5, .print [3], .load (.number ⟨0, 0⟩) 8, .arith .divide 3 8 9], 10⟩ := by
    cbv
  have hhead : jumpToEnd.lower = .ok ⟨[.load (.string "a") 0, .print [0],
      .load (.number ⟨1, 0⟩) 2, .copy 2 3,
      .load (.bool true) 4, .copy 4 5, .jumpIf 5 9, .load (.bool false) 6, .copy 6 5], 7⟩ := by
    cbv
  obtain ⟨head, heq, _, _, hruns⟩ := runs_from_front jumpToEnd printThenDivide _ hlower
  obtain rfl := Except.ok.inj (hhead.symm.trans heq)
  obtain ⟨houtput, ⟨t, ht, htn⟩, hcontents⟩ := (hruns none (.new none)).2 _ rfl
  refine ⟨_, _, _, hlower, hhead, rfl, rfl, rfl, houtput, rfl, t, ht, htn, ?_⟩
  rw [(hcontents t ht htn).2]
  rfl

end Program

end LineScript
