import LineScript.Proofs.Decimal.Range
import LineScript.Proofs.Decimal.Truncation

/-!
# The precision of products

The coefficients of two numbers are multiplied and checked, their places are added and not checked.
Where there are more than 38 of them together the last ones are cut off like those of a quotient,
although a product always ends.

So a product is not always exact. It is exact if it ends within 38 places, whatever places its
factors have, and it is zero, of factors that are not, if it is smaller than the last of the 38
places (`mul_precision`).
-/

set_option autoImplicit false

namespace LineScript.Decimal

section Products

variable {a b c : Decimal}

theorem value_mul_value (a b : Decimal) :
    a.value * b.value = ((a.coefficient * b.coefficient : ℤ) : ℚ) / 10 ^ (a.scale + b.scale) := by
  rw [value, value, div_mul_div_comm, ← pow_add, Int.cast_mul]

/-- The places of a product are those of its factors together, at most. -/
theorem endsWithin_mul (a b : Decimal) :
    EndsWithin (a.value * b.value) ((a.scale + b.scale : ℕ) : ℤ) := by
  rw [value_mul_value]
  exact endsWithin_div_pow _ _

/-- **One cut.** A product is the exact product, cut toward zero. -/
theorem mul_computes (a b : Decimal) :
    Computes (a.mul b) (InRange (a.coefficient * b.coefficient))
      (truncated (a.value * b.value) maxScale) := by
  unfold mul
  refine computes_checked Iff.rfl fun h => ⟨canonical_ofCoefficient _ h, ?_⟩
  rw [value_ofCoefficient_truncated h, value_mul_value]

/-- **The precision of a product.** There is a product exactly if the product of the coefficients is
in range. It is the exact product, cut toward zero to 38 places: it is exact if and only if the
exact product ends within them, which it does if the factors have no more than 38 places together,
and it is zero if and only if the exact product is less than one unit of the last of them. -/
theorem mul_precision (a b : Decimal) :
    Computes (a.mul b) (InRange (a.coefficient * b.coefficient))
      (truncated (a.value * b.value) maxScale) ∧
      ∀ c, a.mul b = .ok c →
        (c.value = a.value * b.value ↔ EndsWithin (a.value * b.value) maxScale) ∧
        (a.scale + b.scale ≤ maxScale → c.value = a.value * b.value) ∧
        (c.value = 0 ↔ |a.value * b.value| < 10 ^ (-(maxScale : ℤ))) := by
  refine ⟨mul_computes a b, fun c hc => ?_⟩
  have hvalue := ((mul_computes a b).exact c hc).2
  rw [hvalue]
  refine ⟨truncated_eq_iff, fun hle => ?_, truncated_eq_zero_iff⟩
  exact truncated_eq_iff.2 ((endsWithin_mul a b).mono (by exact_mod_cast hle))

end Products

/-- Factors with 39 places together, and a product that ends within 38. -/
theorem mul_precision_endsEarlier :
    mul ⟨2, 20⟩ ⟨5, 19⟩ = .ok ⟨1, 38⟩ ∧ value ⟨1, 38⟩ = value ⟨2, 20⟩ * value ⟨5, 19⟩ := by
  have hmul : mul ⟨2, 20⟩ ⟨5, 19⟩ = .ok ⟨1, 38⟩ := by decide
  have hends : EndsWithin (value ⟨2, 20⟩ * value ⟨5, 19⟩) maxScale :=
    ⟨1, by norm_num [value, maxScale]⟩
  exact ⟨hmul, ((mul_precision ⟨2, 20⟩ ⟨5, 19⟩).2 _ hmul).1.2 hends⟩

/-- A product of two numbers that are not zero is given as zero, although no number has its
value. -/
theorem mul_not_exact_tiny :
    mul ⟨1, 20⟩ ⟨1, 20⟩ = .ok zero ∧ Canonical ⟨1, 20⟩ ∧ value ⟨1, 20⟩ ≠ 0 ∧
      value zero ≠ value ⟨1, 20⟩ * value ⟨1, 20⟩ ∧
      ∀ n : Decimal, n.Canonical → n.value ≠ value ⟨1, 20⟩ * value ⟨1, 20⟩ := by
  have hproduct : value ⟨1, 20⟩ * value ⟨1, 20⟩ = 1 / 10 ^ 40 := by norm_num [value]
  refine ⟨by decide, ⟨by decide, by decide, fun _ => by decide⟩, by norm_num [value], ?_,
    fun n hn hvalue => ?_⟩
  · rw [hproduct]
    norm_num [value, zero]
  · obtain ⟨k, hk⟩ := hn.endsWithin
    have hsmall : (1 : ℚ) / 100 = k := by
      rw [hvalue, hproduct] at hk
      norm_num [maxScale] at hk
      linarith
    have hhundredth : (1 : ℤ) = k * 100 := by
      have hscaled : (1 : ℚ) = k * 100 := by linarith
      exact_mod_cast hscaled
    omega

end LineScript.Decimal
