import LineScript.Proofs.Code.Growth

/-!
# Variables along a run

`Variables R scope s` says that the registers of all variables in `scope` hold what `R` asks for,
and that the registers that are not yet issued are empty. What `R` asks for differs from proof to
proof: a value that the evaluator agrees with, a value of the kind that is known, or any value at
all. How a write bears on it does not, and is said here once: a write outside the variables changes
nothing, and a write into the register of a variable, with the binding that goes with it, concerns
that variable alone.
-/

set_option autoImplicit false

namespace LineScript

open State

/-- The register of each variable holds what `R` asks for, and no register beyond the scope holds
anything. -/
structure Variables (R : String → Operand → Option Value → Prop) (scope : Scope)
    (s : State) : Prop where
  wf : scope.WF
  vacant : ∀ {r}, scope.registers ≤ r → s.registers.get? r = none
  holds : ∀ {x b}, scope.find? x = some b → R x b (s.registers.get? b.register)

namespace Variables

variable {R R' : String → Operand → Option Value → Prop} {scope after : Scope} {s t : State}

/-- Only the registers of a state count. -/
theorem of_registers_eq (h : Variables R scope s) (hr : t.registers = s.registers) :
    Variables R scope t :=
  ⟨h.wf, fun hq => hr ▸ h.vacant hq, fun hb => hr ▸ h.holds hb⟩

theorem moved {n : Nat} (h : Variables R scope s) : Variables R scope { s with next := n } :=
  h.of_registers_eq rfl

/-- A register outside the variables is written. -/
theorem wrote {r : Register} {v : Value} (h : Variables R scope s) (hlt : r < scope.registers)
    (hr : ∀ x b, scope.find? x = some b → b.register ≠ r) : Variables R scope (s.wrote r v) where
  wf := h.wf
  vacant {q} hq := by
    have hne : q ≠ r := Nat.ne_of_gt (Nat.lt_of_lt_of_le hlt hq)
    rw [wrote_get?_of_ne hne, h.vacant hq]
  holds {x b} hb := by
    rw [wrote_get?_of_ne (hr x b hb)]
    exact h.holds hb

/-- A register is issued. -/
theorem fresh (h : Variables R scope s) :
    Variables R { scope with registers := scope.registers + 1 } s :=
  ⟨(Scope.Since.fresh (A := fun _ => False) h.wf).wf,
    fun hr => h.vacant (Nat.le_of_succ_le hr), h.holds⟩

/-- A register is issued and written. -/
theorem wrote_fresh {v : Value} (h : Variables R scope s) :
    Variables R { scope with registers := scope.registers + 1 } (s.wrote scope.registers v) :=
  h.fresh.wrote (Nat.lt_succ_self _) fun x _ hb => Nat.ne_of_lt (h.wf.lt (x := x) hb)

/-- A variable is given a value in the register it has. -/
theorem rebind {x : String} {b operand : Operand} {v : Value} (h : Variables R scope s)
    (hb : scope.find? x = some b) (hr : operand.register = b.register) (hx : R' x operand (some v))
    (hR : ∀ y c held, y ≠ x → R y c held → R' y c held) :
    Variables R' (scope.bind x operand) (s.wrote b.register v) where
  wf := (Scope.Since.rebind (A := fun _ => True) h.wf trivial hb hr).wf
  vacant {q} hq := by
    have hne : q ≠ b.register := Nat.ne_of_gt (Nat.lt_of_lt_of_le (h.wf.lt hb) hq)
    rw [wrote_get?_of_ne hne, h.vacant hq]
  holds {y c} hc := by
    rw [Scope.find?_bind] at hc
    by_cases hy : y = x
    · rw [if_pos hy] at hc
      obtain rfl := Option.some.inj hc
      rw [hr, wrote_get?_self, hy]
      exact hx
    · rw [if_neg hy] at hc
      -- No two variables share a register.
      have hne : c.register ≠ b.register := fun e => hy (h.wf.apart hc hb e)
      rw [wrote_get?_of_ne hne]
      exact hR y c _ hy (h.holds hc)

/-- A variable is given its first value in a new register. -/
theorem bindNew {x : String} {kind : Option Kind} {v : Value} (h : Variables R scope s)
    (hn : scope.find? x = none) (hx : R' x ⟨scope.registers, kind⟩ (some v))
    (hR : ∀ y c held, y ≠ x → R y c held → R' y c held) :
    Variables R' (Scope.bind { scope with registers := scope.registers + 1 } x
      ⟨scope.registers, kind⟩) (s.wrote scope.registers v) where
  wf := (Scope.Since.bindNew (A := fun _ => True) h.wf trivial hn).wf
  vacant hq := h.wrote_fresh.vacant hq
  holds {y c} hc := by
    rw [Scope.find?_bind] at hc
    by_cases hy : y = x
    · rw [if_pos hy] at hc
      obtain rfl := Option.some.inj hc
      rw [wrote_get?_self, hy]
      exact hx
    · rw [if_neg hy] at hc
      exact hR y c _ hy (h.wrote_fresh.holds hc)

/-- Code that was skipped leaves its scope behind, not its effects. -/
theorem skipped {A : String → Prop} (h : Variables R scope s) (hs : Scope.Since A scope after)
    (hR : ∀ x c, after.find? x = some c → R x c (s.registers.get? c.register)) :
    Variables R after s :=
  ⟨hs.wf, fun hr => h.vacant (Nat.le_trans hs.le hr), fun hc => hR _ _ hc⟩

theorem initial (routine : Routine) (sink : Sink) : Variables R .empty (routine.start sink) where
  wf := Scope.empty_wf
  vacant _ := Registers.get?_empty _ _
  holds hb := nomatch hb

end Variables

end LineScript
