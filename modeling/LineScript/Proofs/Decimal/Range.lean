import LineScript.Proofs.Decimal.Canonical
import Mathlib.Tactic.Linarith

/-!
# Range

Arithmetic fails for one reason only, apart from a divisor that is zero: a number that it forms on
the way leaves the range of coefficients. `Computes` says this of an operation together with what it
gives otherwise, and is proved of one check at a time (`computes_checked`).

Only one quotient of two coefficients is out of range (`inRange_tdiv_iff`).
-/

set_option autoImplicit false

namespace LineScript.Decimal

/-! ## Rational numbers in range -/

/-- A rational number from the smallest to the largest coefficient. -/
def WithinRange (x : ℚ) : Prop := minCoefficient ≤ x ∧ x ≤ maxCoefficient

section Range

variable {c d : Int} {x : ℚ}

theorem withinRange_intCast : WithinRange (c : ℚ) ↔ InRange c := by
  unfold WithinRange InRange
  norm_cast

/-- What is out of range is farther from zero than the largest coefficient. -/
theorem lt_abs_of_not_withinRange (h : ¬ WithinRange x) : (maxCoefficient : ℚ) < |x| := by
  by_contra hle
  obtain ⟨hlow, hhigh⟩ := abs_le.1 (not_lt.1 hle)
  have hmin : (minCoefficient : ℚ) ≤ -maxCoefficient := by
    exact_mod_cast (by decide : minCoefficient ≤ -maxCoefficient)
  exact h ⟨hmin.trans hlow, hhigh⟩

/-- Of all quotients only that of the smallest coefficient by `-1` is out of range. -/
theorem inRange_tdiv_iff (hc : InRange c) (hd : d ≠ 0) :
    InRange (c.tdiv d) ↔ ¬ (c = minCoefficient ∧ d = -1) := by
  constructor
  · rintro h ⟨rfl, rfl⟩
    exact absurd h (by decide)
  · intro hnot
    rcases lt_or_gt_of_ne hd with hneg | hpos
    · by_cases hone : d = -1
      · have hmin : c ≠ minCoefficient := fun h => hnot ⟨h, hone⟩
        rw [hone, Int.tdiv_neg, Int.tdiv_one]
        unfold InRange minCoefficient maxCoefficient at *
        omega
      · -- A divisor of at least two leaves no more than half of the dividend.
        have hhalf : (c.tdiv d).natAbs ≤ c.natAbs / 2 := by
          rw [Int.natAbs_tdiv]
          exact Nat.div_le_div_left (by omega) (by decide)
        unfold InRange minCoefficient maxCoefficient at *
        omega
    · exact inRange_tdiv hc hpos

end Range

/-! ## Results of operations -/

/-- An operation computes an exact result if it can: it has a result exactly if what it forms on the
way fits, it fails only for range, and its result is the canonical number with the value `x`. -/
structure Computes (result : Except DecimalError Decimal) (fits : Prop) (x : ℚ) : Prop where
  succeeds_iff : (∃ n, result = .ok n) ↔ fits
  fails : ∀ e, result = .error e → e = .outOfRange
  exact : ∀ n, result = .ok n → n.Canonical ∧ n.value = x

section Results

variable {c : Int} {n : Decimal} {fits other : Prop} {x : ℚ}

theorem checked_of_inRange (h : InRange c) : checked c = .ok c := if_pos h

theorem checked_of_not_inRange (h : ¬ InRange c) : checked c = .error .outOfRange := if_neg h

/-- To show what a computation gives, it is enough to have a canonical number with the right value.
-/
theorem computes_ok (hfits : fits) (hn : n.Canonical) (hx : n.value = x) :
    Computes (.ok n) fits x where
  succeeds_iff := iff_of_true ⟨n, rfl⟩ hfits
  fails _ h := nomatch h
  exact m h := by
    obtain rfl := Except.ok.inj h
    exact ⟨hn, hx⟩

theorem computes_error (hfits : ¬ fits) : Computes (.error .outOfRange) fits x where
  succeeds_iff := iff_of_false (by rintro ⟨_, h⟩; cases h) hfits
  fails _ h := (Except.error.inj h).symm
  exact _ h := nomatch h

theorem Computes.congr {result : Except DecimalError Decimal} (h : Computes result fits x)
    (hfits : fits ↔ other) : Computes result other x :=
  ⟨h.succeeds_iff.trans hfits, h.fails, h.exact⟩

/-- The operation that checks one coefficient and then makes a number. -/
theorem computes_checked {f : Int → Decimal} (hfits : InRange c ↔ fits)
    (hn : InRange c → (f c).Canonical ∧ (f c).value = x) :
    Computes (checked c >>= fun k => pure (f k)) fits x := by
  by_cases h : InRange c
  · obtain ⟨hcanonical, hvalue⟩ := hn h
    rw [checked_of_inRange h]
    exact computes_ok (hfits.1 h) hcanonical hvalue
  · rw [checked_of_not_inRange h]
    exact computes_error (mt hfits.2 h)

end Results

end LineScript.Decimal
