import LineScript.Proofs.Decimal.Truncation

/-!
# The precision of quotients

Division widens its dividend by up to 28 places more than the divisor has, divides, and cuts toward
zero. Two cuts come one after the other, since a quotient has no more than 38 places in the end;
together they are one cut of the exact quotient, at `quotientPlaces` (`div_value`).

Where the widened dividend fits, there are at least 28 places, and a quotient that ends within 28
places is exact and any other off by less than `10⁻²⁸` (`precise_of_le_places`). A dividend that is
long already is widened less, and then the quotient has fewer places than that, down to none at all
and to multiples of powers of ten: it is exact if the quotient ends within the places that are left,
and only then (`div_precision`).
-/

set_option autoImplicit false

namespace LineScript.Decimal

/-! ## Widening -/

/-- A coefficient can be written with so many more places. -/
def Fits (c : Int) (extra : Nat) : Prop := extra ≤ maxScale ∧ InRange (c * tenTo extra)

instance (c : Int) (extra : Nat) : Decidable (Fits c extra) := inferInstanceAs (Decidable (_ ∧ _))

/-- The most places that a coefficient can be written with beyond its own, `limit` at most. -/
structure Widest (c : Int) (limit extra : Nat) : Prop where
  le_limit : extra ≤ limit
  fits : Fits c extra
  greatest : ∀ more, extra < more → more ≤ limit → ¬ Fits c more

theorem Widest.eq_limit {c : Int} {limit extra : Nat} (h : Widest c limit extra)
    (hlimit : Fits c limit) : extra = limit := by
  by_contra hne
  exact h.greatest limit (Nat.lt_of_le_of_ne h.le_limit hne) (Nat.le_refl _) hlimit

/-- **Widening** finds the most places that there are. -/
theorem widest_of_widen? {c : Int} {limit : Nat} {w : Widened} (h : widen? c limit = some w) :
    w.coefficient = c * tenTo w.extra ∧ Widest c limit w.extra := by
  induction limit with
  | zero =>
    rw [widen?] at h
    split at h
    · rename_i hfits
      obtain rfl := Option.some.inj h
      exact ⟨rfl, Nat.le_refl 0, hfits, fun more hmore hle => absurd hmore (Nat.not_lt.2 hle)⟩
    · cases h
  | succ limit ih =>
    rw [widen?] at h
    split at h
    · rename_i hfits
      obtain rfl := Option.some.inj h
      exact ⟨rfl, Nat.le_refl _, hfits, fun more hmore hle => absurd hmore (Nat.not_lt.2 hle)⟩
    · rename_i hno
      obtain ⟨hcoefficient, hle, hfits, hgreatest⟩ := ih h
      refine ⟨hcoefficient, Nat.le_succ_of_le hle, hfits, fun more hmore hlimit => ?_⟩
      rcases Nat.lt_or_eq_of_le hlimit with hlt | rfl
      · exact hgreatest more hmore (Nat.le_of_lt_succ hlt)
      · exact hno

/-! ## Quotients -/

/-- The places of a quotient whose dividend was widened by `extra` places. -/
def quotientPlaces (a b : Decimal) (extra : Nat) : ℤ := min maxScale (a.scale + extra - b.scale)

/-- The precision that quotients are meant to have: one that ends within 28 places is exact, and any
other is off by less than one unit of the last of them. -/
structure Precise (a b q : Decimal) : Prop where
  exact_of_ends : EndsWithin (a.value / b.value) divisionPlaces → q.value = a.value / b.value
  close_of_not_ends : ¬ EndsWithin (a.value / b.value) divisionPlaces →
    |q.value - a.value / b.value| < 10 ^ (-(divisionPlaces : ℤ))

section Quotients

variable {a b q : Decimal} {c : Int} {s extra : Nat}

/-- The quotient of the values, moved by the places of a quotient, is the quotient of the
coefficients. -/
theorem value_div_mul (hb : b.coefficient ≠ 0) :
    a.value / b.value * 10 ^ (a.scale + extra - b.scale : ℤ) =
      ((a.coefficient * tenTo extra : ℤ) : ℚ) / b.coefficient := by
  have hten : (10 : ℚ) ≠ 0 := by norm_num
  have hcoefficient : (b.coefficient : ℚ) ≠ 0 := Int.cast_ne_zero.2 hb
  rw [value, value, zpow_sub₀ hten, zpow_add₀ hten, tenTo_eq]
  push_cast
  simp only [zpow_natCast]
  field_simp

/-- The quotient of the coefficients is the exact quotient, cut toward zero at the places that it
then has. -/
theorem truncated_quotient {w : Widened} (hb : b.coefficient ≠ 0)
    (hw : w.coefficient = a.coefficient * tenTo w.extra) :
    truncated (a.value / b.value) (a.scale + w.extra - b.scale) =
      (w.coefficient.tdiv b.coefficient : ℤ) / 10 ^ (a.scale + w.extra - b.scale : ℤ) := by
  rw [truncated, value_div_mul hb, towardZero_intCast_div, hw]

/-- With fewer places than none the quotient of the coefficients is widened in turn. -/
theorem truncated_quotient_of_lt {w : Widened} (hb : b.coefficient ≠ 0)
    (hw : w.coefficient = a.coefficient * tenTo w.extra) (hlt : a.scale + w.extra < b.scale) :
    truncated (a.value / b.value) (a.scale + w.extra - b.scale) =
      (w.coefficient.tdiv b.coefficient * tenTo (b.scale - (a.scale + w.extra)) : ℤ) := by
  have hplaces : (a.scale + w.extra - b.scale : ℤ) =
      -((b.scale - (a.scale + w.extra) : ℕ) : ℤ) := by omega
  rw [truncated_quotient hb hw, hplaces, zpow_neg, zpow_natCast, div_inv_eq_mul, tenTo_eq]
  push_cast
  rfl

/-- **One cut.** A quotient is the exact quotient, cut toward zero. -/
theorem div_value (h : a.div b = .ok q) :
    ∃ extra, Widest a.coefficient (divisionPlaces + b.scale) extra ∧
      q.value = truncated (a.value / b.value) (quotientPlaces a b extra) := by
  unfold div at h
  split at h
  · cases h
  rename_i hb
  have hb : b.coefficient ≠ 0 := by simpa [isZero] using hb
  split at h
  · cases h
  rename_i w hw
  obtain ⟨hwidened, hwidest⟩ := widest_of_widen? hw
  simp only [bind_eq_ok_iff, checked_eq_ok_iff] at h
  obtain ⟨quotient, ⟨hrange, rfl⟩, h⟩ := h
  refine ⟨w.extra, hwidest, ?_⟩
  split at h
  · rename_i hle
    obtain rfl := pure_eq_ok_iff.1 h
    have hplaces : ((a.scale + w.extra - b.scale : ℕ) : ℤ) = a.scale + w.extra - b.scale := by omega
    have hquotient : ((w.coefficient.tdiv b.coefficient : ℤ) : ℚ) / 10 ^ (a.scale + w.extra -
        b.scale) = truncated (a.value / b.value) (a.scale + w.extra - b.scale) := by
      rw [truncated_quotient hb hwidened, ← hplaces, zpow_natCast]
    rw [value_ofCoefficient_eq hrange, hquotient, hplaces]
    exact truncated_truncated (min_le_right _ _)
  · rename_i hlt
    simp only [bind_eq_ok_iff, checked_eq_ok_iff, pure_eq_ok_iff] at h
    obtain ⟨whole, ⟨-, rfl⟩, rfl⟩ := h
    have hmin : quotientPlaces a b w.extra = a.scale + w.extra - b.scale :=
      min_eq_right (by omega)
    rw [hmin, truncated_quotient_of_lt hb hwidened (Nat.lt_of_not_le hlt),
      value_ofCoefficient (Nat.zero_le _), pow_zero, div_one]

/-- With 28 places and more a quotient has the precision that is meant. -/
theorem precise_of_le_places {places : ℤ} (hq : q.value = truncated (a.value / b.value) places)
    (hplaces : (divisionPlaces : ℤ) ≤ places) : Precise a b q where
  exact_of_ends h := hq.trans (truncated_eq_iff.2 (h.mono hplaces))
  close_of_not_ends _ := by
    rw [hq]
    refine lt_of_lt_of_le (abs_truncated_sub_lt _ _) ?_
    exact zpow_le_zpow_right₀ (by norm_num) (neg_le_neg hplaces)

/-- A dividend that can be widened as far as it is wanted gives at least 28 places. -/
theorem Widest.le_quotientPlaces (h : Widest a.coefficient (divisionPlaces + b.scale) extra)
    (hfits : Fits a.coefficient (divisionPlaces + b.scale)) :
    (divisionPlaces : ℤ) ≤ quotientPlaces a b extra := by
  rw [h.eq_limit hfits, quotientPlaces]
  refine le_min (by decide) ?_
  push_cast
  omega

/-- **The precision of a quotient.** Let the dividend be widened by the most places that fit, up to
28 beyond those of the divisor. The quotient is the exact quotient, cut toward zero to the places
that it then has: it is exact if and only if the exact quotient ends within them, and else it is off
by less than one unit of the last of them. If they are 28 and more, which they are if the dividend
fits with all of the places, then the quotient has the precision that it is meant to have. -/
theorem div_precision (h : a.div b = .ok q) :
    ∃ extra, Widest a.coefficient (divisionPlaces + b.scale) extra ∧
      q.value = truncated (a.value / b.value) (quotientPlaces a b extra) ∧
      (q.value = a.value / b.value ↔ EndsWithin (a.value / b.value) (quotientPlaces a b extra)) ∧
      |q.value - a.value / b.value| < 10 ^ (-quotientPlaces a b extra) ∧
        (divisionPlaces ≤ quotientPlaces a b extra → Precise a b q) ∧
        (Fits a.coefficient (divisionPlaces + b.scale) →
          divisionPlaces ≤ quotientPlaces a b extra) := by
  obtain ⟨extra, hwidest, hvalue⟩ := div_value h
  refine ⟨extra, hwidest, hvalue, ?_, ?_, precise_of_le_places hvalue, hwidest.le_quotientPlaces⟩
  · rw [hvalue]
    exact truncated_eq_iff
  · rw [hvalue]
    exact abs_truncated_sub_lt _ _

end Quotients

/-- A third, with all of its 28 places. -/
theorem div_precision_third :
    div ⟨1, 0⟩ ⟨3, 0⟩ = .ok ⟨3333333333333333333333333333, 28⟩ ∧
      Precise ⟨1, 0⟩ ⟨3, 0⟩ ⟨3333333333333333333333333333, 28⟩ := by
  have hdiv : div ⟨1, 0⟩ ⟨3, 0⟩ = .ok ⟨3333333333333333333333333333, 28⟩ := by cbv
  obtain ⟨_, _, _, _, _, hprecise, hplaces⟩ := div_precision hdiv
  exact ⟨hdiv, hprecise (hplaces (by decide))⟩

/-- A dividend that fits with no place more: the tenth part of the largest number is a number, but
the quotient is the whole number below it. -/
theorem not_precise_largest :
    div ⟨maxCoefficient, 0⟩ ⟨10, 0⟩ = .ok ⟨17014118346046923173168730371588410572, 0⟩ ∧
      Canonical ⟨maxCoefficient, 1⟩ ∧
      value ⟨maxCoefficient, 1⟩ = value ⟨maxCoefficient, 0⟩ / value ⟨10, 0⟩ ∧
      ¬ Precise ⟨maxCoefficient, 0⟩ ⟨10, 0⟩ ⟨17014118346046923173168730371588410572, 0⟩ := by
  have hexact : value ⟨maxCoefficient, 1⟩ = value ⟨maxCoefficient, 0⟩ / value ⟨10, 0⟩ := by
    norm_num [value]
  refine ⟨by cbv, ⟨by decide, by decide, fun _ => by decide⟩, hexact, fun h => ?_⟩
  have hends : EndsWithin (value ⟨maxCoefficient, 0⟩ / value ⟨10, 0⟩) 1 :=
    ⟨maxCoefficient, by norm_num [value]⟩
  have hequal := h.exact_of_ends (hends.mono (by decide))
  norm_num [value, maxCoefficient] at hequal

end LineScript.Decimal
