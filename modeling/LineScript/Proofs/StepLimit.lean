import LineScript.Proofs.Machine.Steps

/-!
# The limit of instructions only cuts runs short

A limit changes nothing about a run but where it stops. If a run ends within the limit, it ends in
the same way under every higher limit and without one; otherwise as many instructions as allowed
were carried out, and what they printed is the first part of what the run prints when it may go on.
The limit is tested only where there is an instruction left, so a run that needs exactly as many as
allowed still ends (`Routine.limit_only_cuts`).

The code may be any list of instructions. Nothing is said about jumps, so the run without a limit
may well have no end.
-/

set_option autoImplicit false

namespace LineScript.Routine

open State

variable {r : Routine} {sink : Sink} {n m k : Nat} {t : State} {a : RunResult}

/-- Counts of steps that fit into 64 bits are limits of no account to a run without one. -/
theorem le_unlimited (h : n < UInt64.size) : n ≤ r.unlimited := by
  have hsize : UInt64.size = 0x10000000000000000 := rfl
  rw [unlimited]
  omega

/-- A run that prints more goes on behind what it has printed. -/
theorem output_of_steps (h : Steps r.code n (r.start sink) t) {limit : Option Nat}
    (hle : n ≤ limit.getD r.unlimited) : t.sink.taken.toList <+: (r.run limit sink).output := by
  obtain ⟨left, hleft⟩ := Nat.exists_eq_add_of_le hle
  show _ <+: (runFor r.code (limit.getD r.unlimited) (r.start sink)).1.sink.taken.toList
  rw [hleft, h.runFor]
  exact taken_of_runFor _ _ _

/-- A run that is not stopped by its limit has ended within it. -/
theorem ends_of_ne_stepLimit (h : ∀ k, (r.run (some n) sink).result ≠ .error (.stepLimit k)) :
    ∃ k, k ≤ n ∧ r.Ends sink k (r.run (some n) sink) := by
  rcases r.ends_or_steps sink n with ⟨k, hle, a, ha⟩ | ⟨t, ht, hi⟩
  · have hrun : r.run (some n) sink = a := ha.run hle
    exact ⟨k, hle, hrun ▸ ha⟩
  · have hrun : r.run (some n) sink = ⟨.error (.stepLimit n), t.sink.taken.toList⟩ :=
      run_of_steps ht hi rfl
    exact absurd (congrArg RunResult.result hrun) (h n)

/-- A run that is stopped by its limit is under way. -/
theorem steps_of_stepLimit (h : (r.run (some n) sink).result = .error (.stepLimit k)) :
    ∃ t, Steps r.code n (r.start sink) t ∧ r.code[t.next]? ≠ none := by
  rcases r.ends_or_steps sink n with ⟨j, hle, a, ha⟩ | hsteps
  · have hrun : r.run (some n) sink = a := ha.run hle
    rw [hrun] at h
    exact absurd h (ha.ne_stepLimit k)
  · exact hsteps

/-- **The limit only cuts runs short.** Under a limit of `n` a run that is not stopped ends as it
does under every higher limit and without one. A run that is stopped has carried out `n`
instructions, and a longer run prints what it printed and perhaps more. A run that ends after
exactly `n` instructions is not stopped, and by every lower limit it is. -/
theorem limit_only_cuts (r : Routine) (sink : Sink) (n m : Nat) (hle : n ≤ m) :
    ((∀ k, (r.run (some n) sink).result ≠ .error (.stepLimit k)) →
      r.run (some m) sink = r.run (some n) sink ∧
      (n < UInt64.size → r.run none sink = r.run (some n) sink) ∧
      ∃ k ≤ n, ∀ j a, r.Ends sink j a ↔ j = k ∧ a = r.run (some n) sink) ∧
      (∀ k, (r.run (some n) sink).result = .error (.stepLimit k) →
        k = n ∧ (∃ t, Steps r.code n (r.start sink) t ∧ r.code[t.next]? ≠ none ∧
          (r.run (some n) sink).output = t.sink.taken.toList) ∧
        (r.run (some n) sink).output <+: (r.run (some m) sink).output ∧
        ∀ j a, r.Ends sink j a → n < j ∧ (r.run (some n) sink).output <+: a.output) ∧
      ∀ a, r.Ends sink n a →
        r.run (some n) sink = a ∧
        ∀ k < n, (r.run (some k) sink).result = .error (.stepLimit k) := by
  refine ⟨fun h => ?_, fun k h => ?_, fun a ha => ?_⟩
  · obtain ⟨k, hk, hends⟩ := ends_of_ne_stepLimit h
    refine ⟨hends.run (Nat.le_trans hk hle), fun hn => ?_, k, hk,
      fun j a => ⟨fun ha => ha.unique hends, ?_⟩⟩
    · apply hends.run
      exact Nat.le_trans hk (le_unlimited hn)
    · rintro ⟨rfl, rfl⟩
      exact hends
  · obtain ⟨t, ht, hi⟩ := steps_of_stepLimit h
    have hrun : r.run (some n) sink = ⟨.error (.stepLimit n), t.sink.taken.toList⟩ :=
      run_of_steps ht hi rfl
    rw [hrun] at h ⊢
    have hk : k = n := by simpa using (Except.error.inj h).symm
    refine ⟨hk, ⟨t, ht, hi, rfl⟩, output_of_steps ht hle, fun j a ha => ?_⟩
    -- An end within the limit would have shown instead of it.
    have hlt : n < j := by
      by_contra hnot
      have hended : r.run (some n) sink = a := ha.run (Nat.le_of_not_lt hnot)
      apply ha.ne_stepLimit n
      rw [← hended, hrun]
    have hended : r.run (some j) sink = a := ha.run (Nat.le_refl j)
    refine ⟨hlt, ?_⟩
    rw [← hended]
    exact output_of_steps ht (Nat.le_of_lt hlt)
  · refine ⟨ha.run (Nat.le_refl n), fun k hk => ?_⟩
    obtain ⟨t, ht, hi⟩ := ha.under_way hk
    have hrun : r.run (some k) sink = ⟨.error (.stepLimit k), t.sink.taken.toList⟩ :=
      run_of_steps ht hi rfl
    rw [hrun]

/-- Prints "a" over and over. -/
def printingLoop : Routine := ⟨[.load (.string "a") 0, .print [0], .jump 1], 1⟩

/-- Prints "a" once and ends behind its last instruction, which is the third. -/
def printAndJump : Routine := ⟨[.load (.string "a") 0, .print [0], .jump 3], 1⟩

/-- The loop is stopped by a limit of two and prints more under a limit of four. Without the jump
back a limit of three is just enough, as every other one is from then on. -/
theorem limit_only_cuts_printingLoop :
    2 ≤ 4 ∧ (printingLoop.run (some 2) (.new none)).result = .error (.stepLimit 2) ∧
      (printingLoop.run (some 2) (.new none)).output <+:
        (printingLoop.run (some 4) (.new none)).output ∧
      (printingLoop.run (some 2) (.new none)).output.length <
        (printingLoop.run (some 4) (.new none)).output.length ∧
      3 ≤ 5 ∧ printAndJump.run (some 5) (.new none) = printAndJump.run (some 3) (.new none) ∧
      printAndJump.run none (.new none) = printAndJump.run (some 3) (.new none) ∧
      (printAndJump.run (some 2) (.new none)).result = .error (.stepLimit 2) := by
  have hstopped : (printingLoop.run (some 2) (.new none)).result = .error (.stepLimit 2) := rfl
  obtain ⟨_, _, hprefix, _⟩ :=
    (limit_only_cuts printingLoop (.new none) 2 4 (by decide)).2.1 2 hstopped
  have hended : ∀ k, (printAndJump.run (some 3) (.new none)).result ≠ .error (.stepLimit k) := by
    intro k
    have hok : ∃ registers, (printAndJump.run (some 3) (.new none)).result = .ok registers :=
      ⟨_, rfl⟩
    obtain ⟨registers, hok⟩ := hok
    rw [hok]
    simp
  obtain ⟨hmore, hfree, _⟩ := (limit_only_cuts printAndJump (.new none) 3 5 (by decide)).1 hended
  exact ⟨by decide, hstopped, hprefix, by decide, by decide, hmore, hfree (by decide), rfl⟩

end LineScript.Routine
