import LineScript.Proofs.Decimal.Range
import LineScript.Proofs.Decimal.Truncation

/-!
# Sums, differences and remainders

Two numbers are first written with the places of the longer one (`align`). From there on the
operations are those of whole numbers, and what they give has no more places than the operands, so
nothing is ever cut off: the result is exact, or something on the way to it leaves the range. What
may leave it is each of the two coefficients so written, then their sum or difference, and for a
remainder the quotient that it belongs to, which is formed although it is not used
(`exact_or_out_of_range`).

Only the alignment is common to the three operations, so it is settled once (`computes_align`) for
whatever follows.
-/

set_option autoImplicit false

namespace LineScript.Decimal

variable {a b r : Decimal} {s : Nat} {x : ℚ}

/-! ## Numbers with the same places -/

/-- The places of the longer one of two numbers. -/
def commonPlaces (a b : Decimal) : Nat := max a.scale b.scale

/-- The coefficient of a number that is written with so many places. -/
def writtenWith (a : Decimal) (places : Nat) : Int := a.coefficient * tenTo (places - a.scale)

/-- With more places a number is written with another coefficient and has the same value. -/
theorem cast_writtenWith (h : a.scale ≤ s) : (a.writtenWith s : ℚ) = a.value * 10 ^ s := by
  have hten : (10 : ℚ) ≠ 0 := by norm_num
  have hsplit : (10 : ℚ) ^ s = 10 ^ a.scale * 10 ^ (s - a.scale) := by
    rw [← pow_add, Nat.add_sub_cancel' h]
  rw [writtenWith, tenTo_eq, value, hsplit]
  push_cast
  field_simp

theorem inRange_writtenWith_iff (h : a.scale ≤ s) :
    InRange (a.writtenWith s) ↔ WithinRange (a.value * 10 ^ s) := by
  rw [← withinRange_intCast, cast_writtenWith h]

theorem le_commonPlaces_left (a b : Decimal) : a.scale ≤ commonPlaces a b := Nat.le_max_left _ _

theorem le_commonPlaces_right (a b : Decimal) : b.scale ≤ commonPlaces a b := Nat.le_max_right _ _

theorem align_eq (a b : Decimal) : align a b = (do
    let left ← checked (a.writtenWith (commonPlaces a b))
    let right ← checked (b.writtenWith (commonPlaces a b))
    pure ⟨left, right, commonPlaces a b⟩) := rfl

/-- Aligned numbers have the places of the one that has more, if both coefficients allow it. -/
theorem align_of_inRange (hleft : InRange (a.writtenWith (commonPlaces a b)))
    (hright : InRange (b.writtenWith (commonPlaces a b))) :
    align a b = .ok ⟨a.writtenWith (commonPlaces a b), b.writtenWith (commonPlaces a b),
      commonPlaces a b⟩ := by
  rw [align_eq, checked_of_inRange hleft, checked_of_inRange hright]
  rfl

theorem align_of_not_inRange (h : ¬ (InRange (a.writtenWith (commonPlaces a b)) ∧
    InRange (b.writtenWith (commonPlaces a b)))) : align a b = .error .outOfRange := by
  rw [align_eq]
  -- The left number is checked first, and the right one only if that fits.
  by_cases hleft : InRange (a.writtenWith (commonPlaces a b))
  · rw [checked_of_inRange hleft, checked_of_not_inRange fun hright => h ⟨hleft, hright⟩]
    rfl
  · rw [checked_of_not_inRange hleft]
    rfl

/-- An operation that begins with the alignment has a result if the alignment and the rest of it
have one. -/
theorem computes_align {f : Aligned → Except DecimalError Decimal} {fits : Prop}
    (h : InRange (a.writtenWith (commonPlaces a b)) → InRange (b.writtenWith (commonPlaces a b)) →
      Computes (f ⟨a.writtenWith (commonPlaces a b), b.writtenWith (commonPlaces a b),
        commonPlaces a b⟩) fits x) :
    Computes (align a b >>= f) (WithinRange (a.value * 10 ^ commonPlaces a b) ∧
      WithinRange (b.value * 10 ^ commonPlaces a b) ∧ fits) x := by
  rw [← inRange_writtenWith_iff (le_commonPlaces_left a b),
    ← inRange_writtenWith_iff (le_commonPlaces_right a b)]
  by_cases hboth : InRange (a.writtenWith (commonPlaces a b)) ∧
    InRange (b.writtenWith (commonPlaces a b))
  · obtain ⟨hleft, hright⟩ := hboth
    rw [align_of_inRange hleft hright]
    exact (h hleft hright).congr ⟨fun hfits => ⟨hleft, hright, hfits⟩, fun hall => hall.2.2⟩
  · rw [align_of_not_inRange hboth]
    exact computes_error fun hall => hboth ⟨hall.1, hall.2.1⟩

theorem commonPlaces_le (ha : a.scale ≤ maxScale) (hb : b.scale ≤ maxScale) :
    commonPlaces a b ≤ maxScale :=
  Nat.max_le.2 ⟨ha, hb⟩

/-! ## Sums and differences -/

/-- A number plus a multiple of another one. The sum is the case of `1` and the difference that of
`-1`. -/
def addMultiple (k : Int) (a b : Decimal) : Except DecimalError Decimal := do
  let p ← align a b
  let total ← checked (p.left + k * p.right)
  pure (ofCoefficient total p.scale)

theorem add_eq_addMultiple (a b : Decimal) : a.add b = addMultiple 1 a b := by
  simp only [add, addMultiple, Int.one_mul]

theorem sub_eq_addMultiple (a b : Decimal) : a.sub b = addMultiple (-1) a b := by
  simp only [sub, addMultiple, Int.neg_one_mul, Int.sub_eq_add_neg]

/-- The sum is not checked alone: both numbers have to be in range with the common places first. -/
theorem addMultiple_computes (k : Int) (ha : a.scale ≤ maxScale) (hb : b.scale ≤ maxScale) :
    Computes (addMultiple k a b) (WithinRange (a.value * 10 ^ commonPlaces a b) ∧
      WithinRange (b.value * 10 ^ commonPlaces a b) ∧
      WithinRange (a.value * 10 ^ commonPlaces a b + k * (b.value * 10 ^ commonPlaces a b)))
      (a.value + k * b.value) := by
  refine computes_align fun _ _ => ?_
  have htotal : ((a.writtenWith (commonPlaces a b) + k * b.writtenWith (commonPlaces a
      b) : ℤ) : ℚ) = a.value * 10 ^ commonPlaces a b + k * (b.value * 10 ^ commonPlaces a b) := by
    push_cast
    rw [cast_writtenWith (le_commonPlaces_left a b), cast_writtenWith (le_commonPlaces_right a b)]
  refine computes_checked ?_ fun hrange => ⟨canonical_ofCoefficient _ hrange, ?_⟩
  · rw [← withinRange_intCast, htotal]
  · rw [value_ofCoefficient (commonPlaces_le ha hb), htotal]
    field_simp

/-! ## Remainders -/

theorem rem_zero (a : Decimal) (h : b.value = 0) : a.rem b = .error .divisionByZero := by
  rw [rem, isZero, value_eq_zero_iff.1 h]
  rfl

/-- The quotient of the coefficients with the same places is the quotient of the values, cut toward
zero. -/
theorem tdiv_writtenWith (ha : a.scale ≤ s) (hb : b.scale ≤ s) :
    (a.writtenWith s).tdiv (b.writtenWith s) = towardZero (a.value / b.value) := by
  have hten : (10 : ℚ) ^ s ≠ 0 := pow_ne_zero _ (by norm_num)
  rw [← towardZero_intCast_div, cast_writtenWith ha, cast_writtenWith hb,
    mul_div_mul_right _ _ hten]

/-- The remainder is never larger than what it is taken of, yet the smallest coefficient and -1 are
refused: their quotient is out of range. -/
theorem rem_computes (ha : a.scale ≤ maxScale) (hb : b.scale ≤ maxScale) (hne : b.value ≠ 0) :
    Computes (a.rem b) (WithinRange (a.value * 10 ^ commonPlaces a b) ∧
      WithinRange (b.value * 10 ^ commonPlaces a b) ∧
      ¬ (a.value * 10 ^ commonPlaces a b = minCoefficient ∧ b.value * 10 ^ commonPlaces a b = -1))
      (a.value - b.value * towardZero (a.value / b.value)) := by
  have hleft := cast_writtenWith (le_commonPlaces_left a b)
  have hright := cast_writtenWith (le_commonPlaces_right a b)
  have hten : (10 : ℚ) ^ commonPlaces a b ≠ 0 := pow_ne_zero _ (by norm_num)
  have hdivisor : b.writtenWith (commonPlaces a b) ≠ 0 := by
    rw [← Int.cast_ne_zero (α := ℚ), hright]
    exact mul_ne_zero hne hten
  have hzero : ¬ b.isZero = true := by simpa [isZero] using mt value_eq_zero_iff.2 hne
  rw [rem, if_neg hzero]
  refine computes_align fun hrange _ => computes_checked ?_ fun _ => ⟨?_, ?_⟩
  · -- The quotient is checked, although only the remainder is given.
    rw [inRange_tdiv_iff hrange hdivisor, ← hleft, ← hright]
    norm_cast
  · exact canonical_ofCoefficient _ (inRange_tmod _ hrange)
  · rw [value_ofCoefficient (commonPlaces_le ha hb), Int.tmod_def,
      tdiv_writtenWith (le_commonPlaces_left a b) (le_commonPlaces_right a b), Int.cast_sub,
      Int.cast_mul, hleft, hright]
    field_simp

/-- A remainder is smaller than the divisor and has the sign of the dividend. -/
theorem remainder_bounds (hne : b.value ≠ 0)
    (hr : r.value = a.value - b.value * towardZero (a.value / b.value)) :
    |r.value| < |b.value| ∧ KeepsSign r.value a.value := by
  -- It is what is cut off from the quotient, times the divisor.
  have hcut : r.value = b.value * (a.value / b.value - towardZero (a.value / b.value)) := by
    rw [hr, mul_sub, mul_div_cancel₀ _ hne]
  constructor
  · have hunit := abs_towardZero_sub_lt (a.value / b.value)
    rw [abs_sub_comm] at hunit
    rw [hcut, abs_mul]
    exact mul_lt_of_lt_one_right (abs_pos.2 hne) hunit
  · have hsign := (keepsSign_sub_towardZero (a.value / b.value)).mul_left b.value
    rwa [← hcut, mul_div_cancel₀ _ hne] at hsign

/-! ## All three -/

/-- **Exact or out of range.** Sums and differences have a result exactly if both numbers, written
with the places of the longer one, and their sum or difference are in range; then the result is
exact. A remainder by a number other than zero has a result exactly if both numbers so written are
in range and are not the smallest coefficient and `-1`; then it is what the quotient, cut toward
zero, leaves of the dividend, smaller than the divisor and of the sign of the dividend. Nothing else
fails but a remainder by zero, and that always does. -/
theorem exact_or_out_of_range (ha : a.Canonical) (hb : b.Canonical) :
    Computes (a.add b) (WithinRange (a.value * 10 ^ commonPlaces a b) ∧
      WithinRange (b.value * 10 ^ commonPlaces a b) ∧
      WithinRange (a.value * 10 ^ commonPlaces a b + b.value * 10 ^ commonPlaces a b))
      (a.value + b.value) ∧
      Computes (a.sub b) (WithinRange (a.value * 10 ^ commonPlaces a b) ∧
        WithinRange (b.value * 10 ^ commonPlaces a b) ∧
        WithinRange (a.value * 10 ^ commonPlaces a b - b.value * 10 ^ commonPlaces a b))
        (a.value - b.value) ∧
      (b.value ≠ 0 →
        Computes (a.rem b) (WithinRange (a.value * 10 ^ commonPlaces a b) ∧
          WithinRange (b.value * 10 ^ commonPlaces a b) ∧
          ¬ (a.value * 10 ^ commonPlaces a b = minCoefficient ∧
            b.value * 10 ^ commonPlaces a b = -1))
          (a.value - b.value * towardZero (a.value / b.value)) ∧
        ∀ r, a.rem b = .ok r → |r.value| < |b.value| ∧ KeepsSign r.value a.value) ∧
      (b.value = 0 → a.rem b = .error .divisionByZero) := by
  refine ⟨?_, ?_, fun hne => ?_, rem_zero a⟩
  · rw [add_eq_addMultiple]
    simpa using addMultiple_computes 1 ha.scale_le hb.scale_le
  · rw [sub_eq_addMultiple]
    simpa [← sub_eq_add_neg] using addMultiple_computes (-1) ha.scale_le hb.scale_le
  · have hrem := rem_computes ha.scale_le hb.scale_le hne
    exact ⟨hrem, fun r hr => remainder_bounds hne (hrem.exact r hr).2⟩

/-- The remainder of `-7.5` by `2`, which has the sign of the dividend. -/
theorem exact_or_out_of_range_negativeRemainder :
    Canonical ⟨-75, 1⟩ ∧ Canonical ⟨2, 0⟩ ∧ rem ⟨-75, 1⟩ ⟨2, 0⟩ = .ok ⟨-15, 1⟩ ∧
      |value ⟨-15, 1⟩| < |value ⟨2, 0⟩| ∧ KeepsSign (value ⟨-15, 1⟩) (value ⟨-75, 1⟩) := by
  have hdividend : Canonical ⟨-75, 1⟩ := ⟨by decide, by decide, fun _ => by decide⟩
  have hdivisor : Canonical ⟨2, 0⟩ := ⟨by decide, by decide, fun h => absurd h (by decide)⟩
  have hrem : rem ⟨-75, 1⟩ ⟨2, 0⟩ = .ok ⟨-15, 1⟩ := by decide
  obtain ⟨-, -, hremainder, -⟩ := exact_or_out_of_range hdividend hdivisor
  exact ⟨hdividend, hdivisor, hrem, (hremainder (by norm_num [value])).2 _ hrem⟩

end LineScript.Decimal
