import LineScript.Proofs.DivisionPrecision
import LineScript.Proofs.Decimal.Range

/-!
# The bounds of quotients

A quotient is the exact quotient, cut toward zero somewhere, so it is never farther from zero than
that and never on the other side of it.

There are three checks on the way, and the first never fails: a dividend fits with no places more.
The quotient of the coefficients fails to fit only for the smallest coefficient by `-1`, and no
dividend comes to be the smallest coefficient by being widened, since that has no factor ten. The
third is of the cut quotient itself, so the exact quotient is out of range as well (`div_error`). A
dividend that fits with 28 places more than the divisor has is far from all that (`div_of_fits`).
-/

set_option autoImplicit false

namespace LineScript.Decimal

variable {a b q : Decimal} {c : Int} {extra limit : Nat}

/-! ## What can fail -/

/-- Every coefficient can be widened, if by no place at all. -/
theorem exists_widen? (h : InRange c) (limit : Nat) : ∃ w, widen? c limit = some w := by
  induction limit with
  | zero =>
    have hfits : 0 ≤ maxScale ∧ InRange (c * tenTo 0) :=
      ⟨Nat.zero_le _, by rwa [tenTo, Int.mul_one]⟩
    exact ⟨_, by rw [widen?, if_pos hfits]⟩
  | succ limit ih =>
    rw [widen?]
    split
    · exact ⟨_, rfl⟩
    · exact ih

/-- The smallest coefficient has no factor ten. -/
theorem eq_min_of_widened (h : c * tenTo extra = minCoefficient) : c = minCoefficient := by
  cases extra with
  | zero => rwa [tenTo, Int.mul_one] at h
  | succ extra =>
    have hdvd : (10 : Int) ∣ minCoefficient :=
      ⟨c * tenTo extra, by rw [← h, tenTo, Int.mul_left_comm]⟩
    exact absurd hdvd (by decide)

/-- **Failure.** Division by a number other than zero fails only for range, and only if the exact
quotient is out of range or the coefficients are the smallest one and `-1`. -/
theorem div_error {e : DecimalError} (ha : InRange a.coefficient) (hb : b.coefficient ≠ 0)
    (h : a.div b = .error e) :
    e = .outOfRange ∧
      ((maxCoefficient : ℚ) < |a.value / b.value| ∨
        a.coefficient = minCoefficient ∧ b.coefficient = -1) := by
  have hzero : ¬ b.isZero = true := by simpa [isZero] using hb
  obtain ⟨w, hw⟩ := exists_widen? ha (divisionPlaces + b.scale)
  obtain ⟨hwidened, hwidest⟩ := widest_of_widen? hw
  have hfits : InRange w.coefficient := hwidened ▸ hwidest.fits.2
  rw [div, if_neg hzero, hw] at h
  simp only [bind_eq_error_iff, checked_eq_error_iff, checked_eq_ok_iff] at h
  rcases h with ⟨hrange, rfl⟩ | ⟨quotient, ⟨hrange, rfl⟩, h⟩
  · -- The quotient of the coefficients is out of range.
    obtain ⟨hmin, hone⟩ := not_not.1 (mt (inRange_tdiv_iff hfits hb).2 hrange)
    exact ⟨rfl, Or.inr ⟨eq_min_of_widened (hwidened ▸ hmin), hone⟩⟩
  · split at h
    · exact absurd h pure_ne_error
    · -- So is the cut quotient, written with no places.
      rename_i hlt
      simp only [bind_eq_error_iff, checked_eq_error_iff, pure_ne_error, and_false, exists_false,
        or_false] at h
      obtain ⟨hwhole, rfl⟩ := h
      rw [← withinRange_intCast,
        ← truncated_quotient_of_lt hb hwidened (Nat.lt_of_not_le hlt)] at hwhole
      exact ⟨rfl, Or.inl ((lt_abs_of_not_withinRange hwhole).trans_le (abs_truncated_le _ _))⟩

/-! ## Dividends that fit -/

/-- A dividend that fits with 28 places to spare is small. -/
theorem abs_mul_lt_of_fits
    (h : InRange (c * 10 ^ (divisionPlaces + extra))) : |c| * 10 ^ extra < 10 ^ 11 := by
  -- The range ends before `10³⁹`, and 28 of its places are spoken for.
  have hbound : |c * 10 ^ (divisionPlaces + extra)| ≤ 2 ^ 127 := by
    unfold InRange minCoefficient maxCoefficient at h
    exact abs_le.2 ⟨by omega, by omega⟩
  have hsplit : |c * 10 ^ (divisionPlaces + extra)| = |c| * 10 ^ extra * 10 ^ 28 := by
    have hpos : (0 : ℤ) < 10 ^ (divisionPlaces + extra) := pow_pos (by decide) _
    rw [abs_mul, abs_of_pos hpos, pow_add, divisionPlaces]
    ring
  rw [hsplit] at hbound
  omega

/-- A quotient is at most the dividend, written with no places behind the point but those of the
divisor. -/
theorem abs_quotient_le (a : Decimal) (hb : b.coefficient ≠ 0) :
    |a.value / b.value| ≤ ((|a.coefficient| * 10 ^ b.scale : ℤ) : ℚ) := by
  have hten : (10 : ℚ) ≠ 0 := by norm_num
  have hcoefficient : (b.coefficient : ℚ) ≠ 0 := Int.cast_ne_zero.2 hb
  have hquotient : a.value / b.value =
      ((a.coefficient * 10 ^ b.scale : ℤ) : ℚ) / ((b.coefficient * 10 ^ a.scale : ℤ) : ℚ) := by
    rw [value, value]
    push_cast
    field_simp
  have hdivisor : (1 : ℚ) ≤ |((b.coefficient * 10 ^ a.scale : ℤ) : ℚ)| := by
    have hne : b.coefficient * 10 ^ a.scale ≠ 0 := mul_ne_zero hb (pow_ne_zero _ (by decide))
    exact_mod_cast Int.one_le_abs hne
  have hdividend : |((a.coefficient * 10 ^ b.scale : ℤ) : ℚ)| =
      ((|a.coefficient| * 10 ^ b.scale : ℤ) : ℚ) := by
    have hpos : (0 : ℤ) < 10 ^ b.scale := pow_pos (by decide) _
    rw [← Int.cast_abs, abs_mul, abs_of_pos hpos]
  rw [hquotient, abs_div, ← hdividend]
  exact div_le_self (abs_nonneg _) hdivisor

/-- Nothing leaves the range when such a dividend is divided. -/
theorem div_ne_error_of_fits {e : DecimalError} (ha : InRange a.coefficient)
    (hb : b.coefficient ≠ 0) (h : InRange (a.coefficient * 10 ^ (divisionPlaces + b.scale))) :
    a.div b ≠ .error e := by
  intro hdiv
  have hsmall := abs_mul_lt_of_fits h
  -- A small dividend rules out both reasons that there are to fail.
  rcases (div_error ha hb hdiv).2 with hlarge | ⟨hmin, -⟩
  · have hquotient : (maxCoefficient : ℚ) < ((|a.coefficient| * 10 ^ b.scale : ℤ) : ℚ) :=
      hlarge.trans_le (abs_quotient_le a hb)
    have hlt : maxCoefficient < |a.coefficient| * 10 ^ b.scale := by exact_mod_cast hquotient
    unfold maxCoefficient at hlt
    omega
  · have hle : |a.coefficient| ≤ |a.coefficient| * 10 ^ b.scale :=
      le_mul_of_one_le_right (abs_nonneg _) (one_le_pow₀ (by decide))
    have hlt := hle.trans_lt hsmall
    rw [hmin] at hlt
    exact absurd hlt (by decide)

/-- Only zero fits with more places than a number can have. -/
theorem eq_zero_of_fits (h : InRange (c * 10 ^ (divisionPlaces + extra)))
    (hmany : maxScale < divisionPlaces + extra) : c = 0 := by
  have hsmall := abs_mul_lt_of_fits h
  have hpow : (10 : ℤ) ^ 11 ≤ 10 ^ extra := by
    refine pow_le_pow_right₀ (by decide) ?_
    unfold divisionPlaces maxScale at hmany
    omega
  have hle : |c| * 10 ^ 11 ≤ |c| * 10 ^ extra := mul_le_mul_of_nonneg_left hpow (abs_nonneg _)
  exact Int.abs_lt_one_iff.1 (by omega)

/-- The quotient of such a dividend is cut behind 28 places more than the dividend has. -/
theorem truncated_quotientPlaces_of_fits
    (hwidest : Widest a.coefficient (divisionPlaces + b.scale) extra)
    (h : InRange (a.coefficient * 10 ^ (divisionPlaces + b.scale))) :
    truncated (a.value / b.value) (quotientPlaces a b extra) =
      truncated (a.value / b.value) (min maxScale (a.scale + divisionPlaces)) := by
  rcases Nat.lt_or_ge maxScale (divisionPlaces + b.scale) with hmany | hlimit
  · -- A quotient that is zero is cut nowhere.
    rw [value_eq_zero_iff.2 (eq_zero_of_fits h hmany), zero_div, truncated_zero, truncated_zero]
  · have hextra : extra = divisionPlaces + b.scale := hwidest.eq_limit ⟨hlimit, by rwa [tenTo_eq]⟩
    have hplaces : (a.scale + (divisionPlaces + b.scale : ℕ) - b.scale : ℤ) =
        a.scale + divisionPlaces := by
      push_cast
      ring
    rw [quotientPlaces, hextra, hplaces]

/-- A dividend that fits with 28 places more than the divisor has gives a quotient with 28 places
more than it has itself. -/
theorem div_of_fits (ha : InRange a.coefficient) (hb : b.coefficient ≠ 0)
    (h : InRange (a.coefficient * 10 ^ (divisionPlaces + b.scale))) :
    ∃ q, a.div b = .ok q ∧
      q.value = truncated (a.value / b.value) (min maxScale (a.scale + divisionPlaces)) := by
  cases hdiv : a.div b with
  | error e => exact absurd hdiv (div_ne_error_of_fits ha hb h)
  | ok q =>
    obtain ⟨extra, hwidest, hvalue⟩ := div_value hdiv
    exact ⟨q, rfl, hvalue.trans (truncated_quotientPlaces_of_fits hwidest h)⟩

/-! ## All bounds -/

/-- **Quotients never overshoot.** A quotient is canonical, not farther from zero than the exact
quotient, and zero or of its sign. Division by a number other than zero fails only for range, and
only if the exact quotient is out of range or the coefficients are the smallest one and `-1`. If the
dividend fits with 28 places more than those of the divisor, then there is a quotient, and it is the
exact one, cut toward zero to 28 places more than those of the dividend, or to 38 places if these
are fewer. -/
theorem quotient_never_overshoots (ha : a.Canonical) (hne : b.value ≠ 0) :
    (∀ q, a.div b = .ok q →
      q.Canonical ∧ |q.value| ≤ |a.value / b.value| ∧ KeepsSign q.value (a.value / b.value)) ∧
      (∀ e, a.div b = .error e → e = .outOfRange ∧ ((maxCoefficient : ℚ) < |a.value / b.value| ∨
        a.coefficient = minCoefficient ∧ b.coefficient = -1)) ∧
      (InRange (a.coefficient * 10 ^ (divisionPlaces + b.scale)) →
        ∃ q, a.div b = .ok q ∧
          q.value = truncated (a.value / b.value) (min maxScale (a.scale + divisionPlaces))) := by
  have hcoefficient : b.coefficient ≠ 0 := mt value_eq_zero_iff.2 hne
  refine ⟨fun q hq => ?_, fun e he => div_error ha.inRange hcoefficient he,
    div_of_fits ha.inRange hcoefficient⟩
  obtain ⟨extra, -, hvalue⟩ := div_value hq
  refine ⟨canonical_of_div hq, ?_, ?_⟩
  · rw [hvalue]
    exact abs_truncated_le _ _
  · rw [hvalue]
    exact keepsSign_truncated _ _

/-- Two thirds below zero: the quotient is cut toward zero behind 28 places. -/
theorem quotient_never_overshoots_negative :
    Canonical ⟨-2, 0⟩ ∧ value ⟨3, 0⟩ ≠ 0 ∧ InRange (-2 * 10 ^ (divisionPlaces + 0)) ∧
      div ⟨-2, 0⟩ ⟨3, 0⟩ = .ok ⟨-6666666666666666666666666666, 28⟩ ∧
      |value ⟨-6666666666666666666666666666, 28⟩| ≤ |value ⟨-2, 0⟩ / value ⟨3, 0⟩| ∧
      value ⟨-6666666666666666666666666666, 28⟩ = truncated (value ⟨-2, 0⟩ / value ⟨3, 0⟩) 28 := by
  have hdividend : Canonical ⟨-2, 0⟩ := ⟨by decide, by decide, fun h => absurd h (by decide)⟩
  have hne : value ⟨3, 0⟩ ≠ 0 := by norm_num [value]
  have hfits : InRange (-2 * 10 ^ (divisionPlaces + 0)) := by decide
  have hdiv : div ⟨-2, 0⟩ ⟨3, 0⟩ = .ok ⟨-6666666666666666666666666666, 28⟩ := by cbv
  obtain ⟨hbounds, -, hprecise⟩ := quotient_never_overshoots hdividend hne
  obtain ⟨q, hq, hvalue⟩ := hprecise hfits
  obtain rfl := Except.ok.inj (hdiv.symm.trans hq)
  exact ⟨hdividend, hne, hfits, hdiv, (hbounds _ hdiv).2.1, hvalue⟩

end LineScript.Decimal
