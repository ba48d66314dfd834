import LineScript.Proofs.Code.Growth
import Mathlib.Data.List.Perm.Subperm

/-!
# Compiled code halts

`State.executed` lists the indexes of the instructions that a run carries out. It has as many
entries as the run takes steps, one more if the run is stopped by its limit and could have gone on
(`length_executed_of_stopped`).

In code whose jumps all lead forward the list is increasing, for each step moves the index up
(`Step.lt`). So no instruction is carried out twice, and a run has ended after as many steps as
there are instructions. Nothing is said about the instructions themselves: an arithmetic fault ends
a run early and only makes the list shorter.
-/

set_option autoImplicit false

namespace LineScript

namespace State

variable {code : List Instruction} {steps : Nat} {s t : State} {ending : Ending}

/-! ## The instructions of a run -/

/-- The indexes of the instructions that a run of at most `steps` steps carries out, in this order.
The last of them may have failed. -/
def executed (code : List Instruction) : (steps : Nat) → State → List Nat
  | 0, _ => []
  | steps + 1, s =>
    match code[s.next]? with
    | none => []
    | some i =>
      match s.advance.execute i with
      | (t, none) => s.next :: executed code steps t
      | (_, some _) => [s.next]

theorem executed_of_none (hn : code[s.next]? = none) : executed code steps s = [] := by
  cases steps with
  | zero => rfl
  | succ steps => rw [executed, hn]

theorem executed_of_step (hs : Step code s t) :
    executed code (steps + 1) s = s.next :: executed code steps t := by
  obtain ⟨i, hi, ht⟩ := hs
  rw [executed, hi]
  simp only [ht]

theorem executed_of_fault {i : Instruction} {fault : Fault} (hi : code[s.next]? = some i)
    (hf : s.advance.execute i = (t, some fault)) : executed code (steps + 1) s = [s.next] := by
  rw [executed, hi]
  simp only [hf]

/-- What a run can do next: nothing, for the code is at its end, go on to one more state, or
fail. -/
theorem next_cases (code : List Instruction) (s : State) :
    code[s.next]? = none ∨ (∃ t, Step code s t) ∨
      ∃ i t fault, code[s.next]? = some i ∧ s.advance.execute i = (t, some fault) := by
  cases hi : code[s.next]? with
  | none => exact Or.inl rfl
  | some i =>
    right
    rcases hx : s.advance.execute i with ⟨t, _ | fault⟩
    · exact Or.inl ⟨t, i, hi, hx⟩
    · exact Or.inr ⟨i, t, fault, rfl, hx⟩

theorem runFor_of_none (hn : code[s.next]? = none) : runFor code steps s = (s, .finished) := by
  cases steps with
  | zero => rw [runFor, hn]
  | succ steps => rw [runFor, hn]

theorem runFor_of_step (hs : Step code s t) : runFor code (steps + 1) s = runFor code steps t := by
  obtain ⟨i, hi, ht⟩ := hs
  rw [runFor, hi]
  simp only [ht]

theorem runFor_of_execute_fault {i : Instruction} {fault : Fault} (hi : code[s.next]? = some i)
    (hf : s.advance.execute i = (t, some fault)) :
    runFor code (steps + 1) s = (t, .failed s.next i.opcode fault) := by
  rw [runFor, hi]
  simp only [hf]

/-- A run that is stopped by its limit has carried out as many instructions, and one more step
carries out one more. -/
theorem length_executed_of_stopped (h : runFor code steps s = (t, .stopped)) :
    (executed code (steps + 1) s).length = steps + 1 := by
  -- On the limit; the run that is left behind the first step is stopped too.
  induction steps generalizing s with
  | zero =>
    rcases next_cases code s with hn | ⟨u, hu⟩ | ⟨i, u, fault, hi, hf⟩
    · rw [runFor_of_none hn] at h
      cases h
    · rw [executed_of_step hu, executed, List.length_singleton]
    · rw [executed_of_fault hi hf, List.length_singleton]
  | succ steps ih =>
    rcases next_cases code s with hn | ⟨u, hu⟩ | ⟨i, u, fault, hi, hf⟩
    · rw [runFor_of_none hn] at h
      cases h
    · rw [runFor_of_step hu] at h
      rw [executed_of_step hu, List.length_cons, ih h]
    · rw [runFor_of_execute_fault hi hf] at h
      cases h

/-- A run that has ended ends in the same way under every higher limit. -/
theorem runFor_of_le {more : Nat} (h : runFor code steps s = (t, ending)) (hend : ending ≠ .stopped)
    (hle : steps ≤ more) : runFor code more s = (t, ending) := by
  induction steps generalizing s more with
  | zero =>
    rcases hi : code[s.next]? with _ | i
    · rw [runFor_of_none hi] at h ⊢
      exact h
    · -- With an instruction left, a run of no steps is stopped.
      rw [runFor, hi] at h
      exact absurd (congrArg Prod.snd h).symm hend
  | succ steps ih =>
    obtain ⟨more, rfl⟩ : ∃ k, more = k + 1 := ⟨more - 1, by omega⟩
    rcases next_cases code s with hn | ⟨u, hu⟩ | ⟨i, u, fault, hi, hf⟩
    · rw [runFor_of_none hn] at h ⊢
      exact h
    · rw [runFor_of_step hu] at h ⊢
      exact ih h (by omega)
    · rw [runFor_of_execute_fault hi hf] at h ⊢
      exact h

/-! ## Forward code -/

/-- Indexes only grow, and each of them is one of the code. -/
theorem executed_pairwise (hf : Forward code) :
    (executed code steps s).Pairwise (· < ·) ∧
      ∀ k ∈ executed code steps s, s.next ≤ k ∧ k < code.length := by
  induction steps generalizing s with
  | zero => exact ⟨.nil, fun k hk => absurd hk List.not_mem_nil⟩
  | succ steps ih =>
    rcases next_cases code s with hn | ⟨t, ht⟩ | ⟨i, t, fault, hi, hx⟩
    · rw [executed_of_none hn]
      exact ⟨.nil, fun k hk => absurd hk List.not_mem_nil⟩
    · obtain ⟨hpair, hrange⟩ := ih (s := t)
      have hlt : s.next < t.next := ht.lt hf
      have hin : s.next < code.length := by
        obtain ⟨i, hi, _⟩ := ht
        exact (List.getElem?_eq_some_iff.1 hi).1
      rw [executed_of_step ht]
      refine ⟨List.pairwise_cons.2 ⟨fun k hk => ?_, hpair⟩, fun k hk => ?_⟩
      · have hle := (hrange k hk).1
        omega
      · rcases List.mem_cons.1 hk with rfl | hk
        · exact ⟨Nat.le_refl _, hin⟩
        · obtain ⟨hle, hbound⟩ := hrange k hk
          exact ⟨by omega, hbound⟩
    · have hin : s.next < code.length := (List.getElem?_eq_some_iff.1 hi).1
      rw [executed_of_fault hi hx]
      refine ⟨List.pairwise_singleton _ _, fun k hk => ?_⟩
      rw [List.mem_singleton.1 hk]
      exact ⟨Nat.le_refl _, hin⟩

theorem executed_nodup (hf : Forward code) : (executed code steps s).Nodup :=
  (executed_pairwise hf).1.imp fun hlt => Nat.ne_of_lt hlt

/-- A run takes no more steps than there are instructions. -/
theorem length_executed_le (hf : Forward code) : (executed code steps s).length ≤ code.length := by
  -- Different indexes of the code are at most as many as the code has.
  have hsub : executed code steps s ⊆ List.range code.length := by
    intro k hk
    exact List.mem_range.2 ((executed_pairwise hf).2 k hk).2
  have hperm := List.subperm_of_subset (executed_nodup hf) hsub
  rw [← List.length_range (n := code.length)]
  exact hperm.length_le

/-- A limit that is not below the length of the code is never met. -/
theorem runFor_ne_stopped (hf : Forward code) (hle : code.length ≤ steps)
    (h : runFor code steps s = (t, ending)) : ending ≠ .stopped := by
  rintro rfl
  have hmore := length_executed_of_stopped h
  have hbound : (executed code (steps + 1) s).length ≤ code.length := length_executed_le hf
  omega

end State

namespace Routine

open State

/-- The indexes of the instructions that a run carries out. -/
def executed (r : Routine) (limit : Option Nat) (sink : Sink) : List Nat :=
  State.executed r.code (limit.getD r.unlimited) (r.start sink)

variable {r : Routine} {limit other : Option Nat} {sink : Sink} {t : State} {ending : Ending}

/-- What a run leaves behind is decided by its last state and how it ends there, unless it is
stopped. -/
theorem run_congr (h : runFor r.code (limit.getD r.unlimited) (r.start sink) = (t, ending))
    (h' : runFor r.code (other.getD r.unlimited) (r.start sink) = (t, ending))
    (hend : ending ≠ .stopped) : r.run limit sink = r.run other sink := by
  simp only [run, h, h']
  cases ending with
  | finished => rfl
  | failed index opcode fault => rfl
  | stopped => exact absurd rfl hend

theorem run_ne_stepLimit (h : runFor r.code (limit.getD r.unlimited) (r.start sink) = (t, ending))
    (hend : ending ≠ .stopped) (m : Nat) : (r.run limit sink).result ≠ .error (.stepLimit m) := by
  simp only [run, h]
  cases ending with
  | finished => simp
  | failed index opcode fault => simp
  | stopped => exact absurd rfl hend

/-- In forward code, all limits from the length of the code on give the result of the run without a
limit, and no limit is reported. -/
theorem run_of_length_le {n : Nat} (hf : Forward r.code) (hle : r.code.length ≤ n) (sink : Sink) :
    r.run (some n) sink = r.run none sink ∧
      ∀ m, (r.run (some n) sink).result ≠ .error (.stepLimit m) := by
  -- Both runs agree with the one that is given as many steps as there are instructions.
  rcases hr : runFor r.code r.code.length (r.start sink) with ⟨t, ending⟩
  have hend : ending ≠ .stopped := runFor_ne_stopped hf (Nat.le_refl _) hr
  have hroom : r.code.length ≤ r.unlimited := by
    unfold unlimited
    omega
  have hlimit : runFor r.code ((some n).getD r.unlimited) (r.start sink) = (t, ending) :=
    runFor_of_le hr hend hle
  have hfree : runFor r.code (none.getD r.unlimited) (r.start sink) = (t, ending) :=
    runFor_of_le hr hend hroom
  exact ⟨run_congr hlimit hfree hend, run_ne_stepLimit hlimit hend⟩

end Routine

namespace Program

/-- Jumps lead forward and not past the end. -/
theorem jump_bounds {p : Program} {routine : Routine} (h : p.lower = .ok routine) {k t : Nat}
    {i : Instruction} (hi : routine.code[k]? = some i) (ht : i.target? = some t) :
    k < t ∧ t ≤ routine.code.length := by
  obtain ⟨all, hall, rfl⟩ := Lowering.statements_of_lower h
  have hj := (Lowering.statements_grown (.refl Scope.empty_wf) hall).jumps k i t hi ht
  rwa [Nat.zero_add, Nat.zero_add] at hj

/-- **Compiled code halts.** Its jumps lead forward and not past its end. So a run carries out no
instruction twice and no more instructions than there are, and a limit that is not below their
number makes no difference and is never reported. -/
theorem run_halts (p : Program) (routine : Routine) (h : p.lower = .ok routine) :
    (∀ k t i, routine.code[k]? = some i → i.target? = some t → k < t ∧ t ≤ routine.code.length) ∧
    (∀ limit sink, (routine.executed limit sink).Nodup ∧
      (routine.executed limit sink).length ≤ routine.code.length) ∧
    ∀ n sink, routine.code.length ≤ n →
      routine.run (some n) sink = routine.run none sink ∧
      ∀ m, (routine.run (some n) sink).result ≠ .error (.stepLimit m) := by
  have hf : State.Forward routine.code := lower_forward h
  refine ⟨fun k t i hi ht => jump_bounds h hi ht, fun limit sink => ?_, fun n sink hle => ?_⟩
  · exact ⟨State.executed_nodup hf, State.length_executed_le hf⟩
  · exact Routine.run_of_length_le hf hle sink

/-- `x = false and (true or 1 < 2)`, `print(x)` -/
def nestedConnectives : Program :=
  [⟨.binary (.ident "x") .assign
    (.binary (.literal (.bool false)) .and (.group (.binary (.literal (.bool true)) .or
      (.binary (.literal (.number ⟨1, 0⟩)) (.relation .less) (.literal (.number ⟨2, 0⟩)))))),
    default⟩, ⟨.call "print" [.ident "x"], default⟩]

/-- Of the thirteen instructions of `nestedConnectives` a run skips eight, and a limit of thirteen
is not met. -/
theorem run_halts_nestedConnectives : ∃ routine, nestedConnectives.lower = .ok routine ∧
    routine.code.length = 13 ∧ routine.executed (some 13) (.new none) = [0, 1, 2, 11, 12] ∧
    ∀ m, (routine.run (some 13) (.new none)).result ≠ .error (.stepLimit m) := by
  have hlower : nestedConnectives.lower = .ok ⟨[.load (.bool false) 0, .copy 0 1, .jumpUnless 1 11,
      .load (.bool true) 2, .copy 2 3, .jumpIf 3 10,
      .load (.number ⟨1, 0⟩) 4, .load (.number ⟨2, 0⟩) 5,
      .relate .less 4 5 6, .copy 6 3, .copy 3 1, .copy 1 7, .print [7]], 9⟩ := by
    cbv
  exact ⟨_, hlower, rfl, rfl, ((run_halts _ _ hlower).2.2 13 _ (Nat.le_refl _)).2⟩

end Program

end LineScript
