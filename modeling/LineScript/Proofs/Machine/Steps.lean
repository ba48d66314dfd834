import LineScript.Proofs.PrefixStability

/-!
# Runs by the number of their instructions

`State.Steps` is a number of instructions carried out without a fault, and `Routine.Ends` is what a
run comes to that nothing limits, with the number of instructions that it carries out. Neither of
them knows of a limit: code that loops has steps of every number and no end.

A run with a limit is described by the two. Up to every number of instructions a run either has
ended or is under way (`ends_or_steps`); an end shows under every limit that is not below its number
(`Ends.run`), and a run that is under way is stopped where it is (`run_of_steps`). Both come from
one fact, that steps count against the limit and do nothing else to it (`Steps.runFor`).
-/

set_option autoImplicit false

namespace LineScript

namespace State

variable {code : List Instruction} {n k : Nat} {s t u : State}

/-- So many instructions are carried out, one after the other and without a fault. -/
inductive Steps (code : List Instruction) : Nat → State → State → Prop
  | zero {s : State} : Steps code 0 s s
  | succ {n : Nat} {s t u : State} (h : Step code s t) (hrest : Steps code n t u) :
      Steps code (n + 1) s u

/-- A run of more steps goes on behind them with what they leave of its limit. -/
theorem Steps.runFor (h : Steps code n s t) (k : Nat) :
    runFor code (n + k) s = runFor code k t := by
  induction h with
  | zero => rw [Nat.zero_add]
  | succ hstep _ ih => rw [Nat.succ_add, runFor_of_step hstep, ih]

/-- Steps can be cut at every number. -/
theorem Steps.split (h : Steps code n s t) (hle : k ≤ n) :
    ∃ u, Steps code k s u ∧ Steps code (n - k) u t := by
  induction h generalizing k with
  | zero =>
    have hk : k = 0 := by omega
    subst hk
    exact ⟨_, .zero, .zero⟩
  | @succ n s u t hstep hrest ih =>
    by_cases hk : k = 0
    · subst hk
      exact ⟨s, .zero, .succ hstep hrest⟩
    · obtain ⟨j, rfl⟩ : ∃ j, k = j + 1 := ⟨k - 1, by omega⟩
      obtain ⟨v, hfirst, hsecond⟩ := ih (by omega : j ≤ n)
      refine ⟨v, .succ hstep hfirst, ?_⟩
      rwa [Nat.add_sub_add_right]

theorem Steps.snoc (h : Steps code n s t) (hstep : Step code t u) : Steps code (n + 1) s u := by
  induction h with
  | zero => exact .succ hstep .zero
  | succ hfirst _ ih => exact .succ hfirst (ih hstep)

/-- Before the last of some steps there is an instruction to go on with. -/
theorem Steps.under_way (h : Steps code n s t) (hlt : k < n) :
    ∃ u, Steps code k s u ∧ code[u.next]? ≠ none := by
  obtain ⟨u, hfirst, hrest⟩ := h.split (Nat.le_of_lt hlt)
  obtain ⟨j, hj⟩ : ∃ j, n - k = j + 1 := ⟨n - k - 1, by omega⟩
  rw [hj] at hrest
  cases hrest with
  | succ hstep _ =>
    obtain ⟨i, hi, _⟩ := hstep
    refine ⟨u, hfirst, ?_⟩
    rw [hi]
    simp

/-- What was printed stays printed. -/
theorem Steps.taken (h : Steps code n s t) : s.sink.taken.toList <+: t.sink.taken.toList := by
  induction h with
  | zero => exact List.prefix_refl _
  | @succ n s u t hstep _ ih =>
    obtain ⟨i, _, hi⟩ := hstep
    have hfirst := taken_of_execute s.advance i
    rw [hi] at hfirst
    exact hfirst.trans ih

end State

namespace Routine

open State

variable {r : Routine} {sink : Sink} {n k j : Nat} {t : State} {a b : RunResult}

/-- What a run comes to that nothing limits: it carries out so many instructions and finds itself
behind the code, or the last of them fails. -/
inductive Ends (r : Routine) (sink : Sink) : Nat → RunResult → Prop
  | finished {n : Nat} {t : State} (h : Steps r.code n (r.start sink) t)
      (hend : r.code[t.next]? = none) : Ends r sink n ⟨.ok t.registers, t.sink.taken.toList⟩
  | failed {n : Nat} {u t : State} {i : Instruction} {fault : Fault}
      (h : Steps r.code n (r.start sink) u) (hi : r.code[u.next]? = some i)
      (hf : u.advance.execute i = (t, some fault)) :
      Ends r sink (n + 1) ⟨.error (.instruction u.next i.opcode fault), t.sink.taken.toList⟩

/-- After every number of instructions a run has ended or is under way. -/
theorem ends_or_steps (r : Routine) (sink : Sink) (n : Nat) :
    (∃ k, k ≤ n ∧ ∃ a, r.Ends sink k a) ∨
      ∃ t, Steps r.code n (r.start sink) t ∧ r.code[t.next]? ≠ none := by
  induction n with
  | zero =>
    by_cases hi : r.code[(r.start sink).next]? = none
    · exact Or.inl ⟨0, Nat.le_refl 0, _, .finished .zero hi⟩
    · exact Or.inr ⟨_, .zero, hi⟩
  | succ n ih =>
    rcases ih with ⟨k, hle, a, ha⟩ | ⟨t, ht, hi⟩
    · exact Or.inl ⟨k, by omega, a, ha⟩
    · -- There is an instruction; it fails, or leads to a state with or without another one.
      rcases next_cases r.code t with hn | ⟨u, hu⟩ | ⟨i, u, fault, hi, hf⟩
      · exact absurd hn hi
      · by_cases hnext : r.code[u.next]? = none
        · exact Or.inl ⟨n + 1, Nat.le_refl _, _, .finished (ht.snoc hu) hnext⟩
        · exact Or.inr ⟨u, ht.snoc hu, hnext⟩
      · exact Or.inl ⟨n + 1, Nat.le_refl _, _, .failed ht hi hf⟩

/-- The run of a limit that is large enough is the run without one. -/
theorem Ends.run (h : r.Ends sink k a) {limit : Option Nat} (hle : k ≤ limit.getD r.unlimited) :
    r.run limit sink = a := by
  cases h with
  | finished hsteps hend =>
    obtain ⟨left, hleft⟩ := Nat.exists_eq_add_of_le hle
    apply run_of_finished
    rw [hleft, hsteps.runFor, runFor_of_none hend]
  | @failed m u t i fault hsteps hi hf =>
    -- The instruction that fails is one more behind the steps, so there is one more in the limit.
    obtain ⟨left, hleft⟩ := Nat.exists_eq_add_of_le hle
    have hlimit : limit.getD r.unlimited = m + (left + 1) := by omega
    apply run_of_failed
    rw [hlimit, hsteps.runFor, runFor_of_execute_fault hi hf]

/-- A limit is never what a run that nothing limits comes to. -/
theorem Ends.ne_stepLimit (h : r.Ends sink k a) (m : Nat) : a.result ≠ .error (.stepLimit m) := by
  cases h with
  | finished => simp
  | failed => simp

/-- Before its last instruction a run is under way. -/
theorem Ends.under_way (h : r.Ends sink k a) (hlt : n < k) :
    ∃ t, Steps r.code n (r.start sink) t ∧ r.code[t.next]? ≠ none := by
  cases h with
  | finished hsteps => exact hsteps.under_way hlt
  | @failed m u t i fault hsteps hi =>
    by_cases hn : n = m
    · subst hn
      refine ⟨u, hsteps, ?_⟩
      rw [hi]
      simp
    · exact hsteps.under_way (by omega)

/-- A run that is under way is stopped by a limit of as many instructions as it has carried out. -/
theorem run_of_steps (h : Steps r.code n (r.start sink) t) (hi : r.code[t.next]? ≠ none)
    {limit : Option Nat} (hn : limit.getD r.unlimited = n) :
    r.run limit sink = ⟨.error (.stepLimit n), t.sink.taken.toList⟩ := by
  obtain ⟨i, hi⟩ := Option.ne_none_iff_exists'.1 hi
  have hrun : runFor r.code n (r.start sink) = (t, .stopped) := by
    have hrest := h.runFor 0
    rw [Nat.add_zero, runFor, hi] at hrest
    exact hrest
  rw [run, hn, hrun]

/-- A run has one end. -/
theorem Ends.unique (ha : r.Ends sink j a) (hb : r.Ends sink k b) : j = k ∧ a = b := by
  -- Of two ends the first one would show where the other run is still under way.
  have hnot : ∀ {j k : Nat} {a b : RunResult}, r.Ends sink j a → r.Ends sink k b → ¬ j < k := by
    intro j k a b ha hb hlt
    obtain ⟨t, ht, hi⟩ := hb.under_way hlt
    have hended : r.run (some j) sink = a := ha.run (Nat.le_refl j)
    have hstopped : r.run (some j) sink = ⟨.error (.stepLimit j), t.sink.taken.toList⟩ :=
      run_of_steps ht hi rfl
    apply ha.ne_stepLimit j
    rw [← hended, hstopped]
  have hjk : j = k :=
    Nat.le_antisymm (Nat.le_of_not_lt (hnot hb ha)) (Nat.le_of_not_lt (hnot ha hb))
  subst hjk
  have hended : r.run (some j) sink = a := ha.run (Nat.le_refl j)
  have hother : r.run (some j) sink = b := hb.run (Nat.le_refl j)
  exact ⟨rfl, hended.symm.trans hother⟩

end Routine

end LineScript
