import LineScript.Proofs.Decimal.Canonical
import Mathlib.Algebra.Order.Floor.Ring
import Mathlib.Data.Rat.Floor
import Mathlib.Data.Sign.Basic
import Mathlib.Tactic.Linarith

/-!
# Cutting toward zero

Whatever a number cannot hold is cut off behind its last place, on the side of zero. `towardZero` is
that cut for whole numbers and `truncated` the one behind any number of places; both are functions
of the rational number alone.

What is used of them: a cut never leads away from zero or to the other sign (`abs_truncated_le`,
`keepsSign_truncated`), takes away less than one unit of the last place (`abs_truncated_sub_lt`),
and takes away nothing exactly if the number ends there (`truncated_eq_iff`). The integer quotient
is the cut of the exact one (`towardZero_intCast_div`), and the number that is made of a coefficient
is the cut of what the coefficient stands for (`value_ofCoefficient_eq`).
-/

set_option autoImplicit false

namespace LineScript.Decimal

/-! ## Whole numbers and places -/

/-- The whole number next to a rational number on the side of zero. -/
def towardZero (x : ℚ) : ℤ := if 0 ≤ x then ⌊x⌋ else ⌈x⌉

/-- A rational number cut toward zero behind a number of places. With a negative number of places
the last digits in front of the point are cut off, too. -/
def truncated (x : ℚ) (places : ℤ) : ℚ := towardZero (x * 10 ^ places) / 10 ^ places

/-- The number can be written with that many places. -/
def EndsWithin (x : ℚ) (places : ℤ) : Prop := ∃ n : ℤ, x = n / 10 ^ places

section Truncation

variable {x : ℚ} {places fewer : ℤ}

theorem towardZero_of_nonneg (h : 0 ≤ x) : towardZero x = ⌊x⌋ := if_pos h

theorem towardZero_neg (x : ℚ) : towardZero (-x) = -towardZero x := by
  unfold towardZero
  rcases lt_trichotomy x 0 with hneg | rfl | hpos
  · rw [if_pos (by linarith), if_neg (not_le.2 hneg), Int.floor_neg]
  · simp
  · rw [if_neg (by linarith), if_pos hpos.le, Int.ceil_neg]

theorem towardZero_intCast (n : ℤ) : towardZero (n : ℚ) = n := by
  unfold towardZero
  split
  · exact Int.floor_intCast n
  · exact Int.ceil_intCast n

/-- To divide and cut is to cut, divide and cut again. -/
theorem towardZero_div_natCast (x : ℚ) (n : ℕ) : towardZero (x / n) = (towardZero x).tdiv n := by
  have hnonneg : ∀ {y : ℚ}, 0 ≤ y → towardZero (y / n) = (towardZero y).tdiv n := by
    intro y hy
    rw [towardZero_of_nonneg (div_nonneg hy n.cast_nonneg), towardZero_of_nonneg hy,
      Int.floor_div_natCast, Int.tdiv_eq_ediv_of_nonneg (Int.floor_nonneg.2 hy)]
  -- A natural number changes no sign, so what is below zero follows from what is above.
  rcases le_total 0 x with hx | hx
  · exact hnonneg hx
  · have hneg := hnonneg (neg_nonneg.2 hx)
    rwa [neg_div, towardZero_neg, towardZero_neg, Int.neg_tdiv, neg_inj] at hneg

theorem towardZero_intCast_div (n d : ℤ) : towardZero (n / d : ℚ) = n.tdiv d := by
  have hnat : ∀ k : ℕ, towardZero (n / k : ℚ) = n.tdiv k := fun k => by
    rw [towardZero_div_natCast, towardZero_intCast]
  obtain ⟨k, rfl | rfl⟩ := d.eq_nat_or_neg
  · exact_mod_cast hnat k
  · rw [Int.tdiv_neg, ← hnat, ← towardZero_neg]
    push_cast
    rw [div_neg]

theorem abs_towardZero_sub_lt (x : ℚ) : |towardZero x - x| < 1 := by
  unfold towardZero
  split
  · rw [abs_lt]
    constructor <;> linarith [Int.floor_le x, Int.lt_floor_add_one x]
  · rw [abs_lt]
    constructor <;> linarith [Int.le_ceil x, Int.ceil_lt_add_one x]

theorem towardZero_nonneg (h : 0 ≤ x) : 0 ≤ towardZero x := by
  rw [towardZero_of_nonneg h]
  exact Int.floor_nonneg.2 h

theorem towardZero_nonpos (h : x ≤ 0) : towardZero x ≤ 0 := by
  have hneg := towardZero_nonneg (neg_nonneg.2 h)
  rw [towardZero_neg] at hneg
  exact Int.neg_nonneg.1 hneg

theorem towardZero_mono {x y : ℚ} (h : x ≤ y) : towardZero x ≤ towardZero y := by
  rcases le_total 0 x with hx | hx
  · rw [towardZero_of_nonneg hx, towardZero_of_nonneg (hx.trans h)]
    exact Int.floor_mono h
  · rcases le_total 0 y with hy | hy
    · exact (towardZero_nonpos hx).trans (towardZero_nonneg hy)
    · -- Below zero the other sign turns the order around.
      have hfloor := Int.floor_mono (neg_le_neg h)
      rw [← towardZero_of_nonneg (neg_nonneg.2 hy), ← towardZero_of_nonneg (neg_nonneg.2 hx),
        towardZero_neg, towardZero_neg] at hfloor
      exact Int.neg_le_neg_iff.1 hfloor

theorem abs_towardZero_le (x : ℚ) : |(towardZero x : ℚ)| ≤ |x| := by
  have hnonneg : ∀ {y : ℚ}, 0 ≤ y → |(towardZero y : ℚ)| ≤ |y| := by
    intro y hy
    have hcut : (0 : ℚ) ≤ towardZero y := by exact_mod_cast towardZero_nonneg hy
    rw [abs_of_nonneg hcut, abs_of_nonneg hy, towardZero_of_nonneg hy]
    exact Int.floor_le y
  rcases le_total 0 x with hx | hx
  · exact hnonneg hx
  · have hneg := hnonneg (neg_nonneg.2 hx)
    rwa [towardZero_neg, Int.cast_neg, abs_neg, abs_neg] at hneg

theorem towardZero_eq_zero_iff : towardZero x = 0 ↔ |x| < 1 := by
  constructor
  · intro h
    have hunit := abs_towardZero_sub_lt x
    rwa [h, Int.cast_zero, zero_sub, abs_neg] at hunit
  · intro h
    have hcut : |(towardZero x : ℚ)| < 1 := (abs_towardZero_le x).trans_lt h
    rw [← Int.abs_lt_one_iff]
    exact_mod_cast hcut

theorem ten_zpow_pos (places : ℤ) : (0 : ℚ) < 10 ^ places := zpow_pos (by norm_num) places

/-- What is cut off is less than one unit of the last place. -/
theorem abs_truncated_sub_lt (x : ℚ) (places : ℤ) : |truncated x places - x| < 10 ^ (-places) := by
  have hpos := ten_zpow_pos places
  have hunit := abs_towardZero_sub_lt (x * 10 ^ places)
  have hscaled : truncated x places - x =
      (towardZero (x * 10 ^ places) - x * 10 ^ places) / 10 ^ places := by
    rw [truncated, sub_div, mul_div_cancel_right₀ _ hpos.ne']
  rw [hscaled, abs_div, abs_of_pos hpos, div_lt_iff₀ hpos, ← zpow_add₀ (by norm_num),
    neg_add_cancel, zpow_zero]
  exact hunit

/-- Nothing is cut off exactly if the number ends there. -/
theorem truncated_eq_iff : truncated x places = x ↔ EndsWithin x places := by
  constructor
  · intro h
    exact ⟨_, h.symm⟩
  · rintro ⟨n, rfl⟩
    rw [truncated, div_mul_cancel₀ _ (ten_zpow_pos places).ne', towardZero_intCast]

/-- Of two cuts the one in front of the other is enough. -/
theorem truncated_truncated (hle : fewer ≤ places) :
    truncated (truncated x places) fewer = truncated x fewer := by
  obtain ⟨k, rfl⟩ := Int.le.dest hle
  have hten : (10 : ℚ) ≠ 0 := by norm_num
  -- In front of `fewer` places the first cut leaves a whole number over `10 ^ k`, which is cut like
  -- the quotient.
  have hmoved : ∀ y : ℚ, y / 10 ^ (fewer + k) * 10 ^ fewer = y / ((10 ^ k : ℕ) : ℚ) := by
    intro y
    rw [zpow_add₀ hten, zpow_natCast]
    push_cast
    field_simp
  have hx := hmoved (x * 10 ^ (fewer + k))
  rw [mul_div_cancel_right₀ _ (ten_zpow_pos _).ne'] at hx
  rw [truncated, truncated, hmoved, towardZero_div_natCast, towardZero_intCast,
    ← towardZero_div_natCast, ← hx, truncated]

theorem EndsWithin.mono (h : EndsWithin x fewer) (hle : fewer ≤ places) : EndsWithin x places := by
  obtain ⟨n, rfl⟩ := h
  obtain ⟨k, rfl⟩ := Int.le.dest hle
  refine ⟨n * 10 ^ k, ?_⟩
  rw [zpow_add₀ (by norm_num), zpow_natCast]
  push_cast
  rw [mul_div_mul_right _ _ (pow_ne_zero k (by norm_num))]

/-- No cut leads away from zero. -/
theorem abs_truncated_le (x : ℚ) (places : ℤ) : |truncated x places| ≤ |x| := by
  have hpos := ten_zpow_pos places
  have hcut := abs_towardZero_le (x * 10 ^ places)
  rw [abs_mul, abs_of_pos hpos] at hcut
  rw [truncated, abs_div, abs_of_pos hpos, div_le_iff₀ hpos]
  exact hcut

/-- All is cut off exactly if there is less than one unit of the last place. -/
theorem truncated_eq_zero_iff : truncated x places = 0 ↔ |x| < 10 ^ (-places) := by
  have hpos := ten_zpow_pos places
  rw [truncated, div_eq_zero_iff, or_iff_left hpos.ne', Int.cast_eq_zero, towardZero_eq_zero_iff,
    abs_mul, abs_of_pos hpos, ← lt_div_iff₀ hpos, zpow_neg, one_div]

theorem truncated_zero (places : ℤ) : truncated 0 places = 0 :=
  truncated_eq_zero_iff.2 (by rw [abs_zero]; exact ten_zpow_pos _)

/-- A number that ends somewhere is cut there by no cut behind that place. -/
theorem EndsWithin.truncated_min (h : EndsWithin x fewer) :
    truncated x (min places fewer) = truncated x places := by
  rcases le_total places fewer with hle | hle
  · rw [min_eq_left hle]
  · rw [min_eq_right hle, truncated_eq_iff.2 h, truncated_eq_iff.2 (h.mono hle)]

end Truncation

/-! ## Signs -/

/-- The first number is zero or has the sign of the second. -/
def KeepsSign (y x : ℚ) : Prop := y = 0 ∨ SignType.sign y = SignType.sign x

section Signs

variable {x y : ℚ}

theorem keepsSign_of (hnonneg : 0 ≤ x → 0 ≤ y) (hnonpos : x ≤ 0 → y ≤ 0) : KeepsSign y x := by
  rcases lt_trichotomy x 0 with hx | rfl | hx
  · rcases (hnonpos hx.le).lt_or_eq with hy | hy
    · exact Or.inr (by rw [sign_neg hy, sign_neg hx])
    · exact Or.inl hy
  · exact Or.inl (le_antisymm (hnonpos le_rfl) (hnonneg le_rfl))
  · rcases (hnonneg hx.le).lt_or_eq with hy | hy
    · exact Or.inr (by rw [sign_pos hy, sign_pos hx])
    · exact Or.inl hy.symm

/-- Both numbers may be multiplied by the same one. -/
theorem KeepsSign.mul_left (h : KeepsSign y x) (k : ℚ) : KeepsSign (k * y) (k * x) := by
  rcases h with rfl | h
  · exact Or.inl (mul_zero k)
  · exact Or.inr (by rw [sign_mul, sign_mul, h])

theorem keepsSign_truncated (x : ℚ) (places : ℤ) : KeepsSign (truncated x places) x := by
  have hpos := ten_zpow_pos places
  refine keepsSign_of (fun hx => ?_) (fun hx => ?_)
  · exact div_nonneg (by exact_mod_cast towardZero_nonneg (mul_nonneg hx hpos.le)) hpos.le
  · have hcut := towardZero_nonpos (mul_nonpos_of_nonpos_of_nonneg hx hpos.le)
    exact div_nonpos_of_nonpos_of_nonneg (by exact_mod_cast hcut) hpos.le

/-- What is cut off has the sign of the number as well. -/
theorem keepsSign_sub_towardZero (x : ℚ) : KeepsSign (x - towardZero x) x := by
  have hcut := abs_towardZero_le x
  refine keepsSign_of (fun hx => ?_) (fun hx => ?_)
  · rw [abs_of_nonneg hx] at hcut
    exact sub_nonneg.2 ((le_abs_self _).trans hcut)
  · rw [abs_of_nonpos hx] at hcut
    linarith [neg_abs_le (towardZero x : ℚ)]

end Signs

/-! ## Numbers made of a coefficient -/

section Coefficients

variable {c : Int} {s : Nat}

theorem tenTo_eq (n : Nat) : tenTo n = 10 ^ n := by
  induction n with
  | zero => rfl
  | succ n ih => rw [tenTo, ih, pow_succ, Int.mul_comm]

/-- Cutting a coefficient to at most 38 places is dividing by what is too much. -/
theorem cut_eq_tdiv (h : InRange c) : cut c s = c.tdiv (tenTo (s - maxScale)) := by
  unfold cut
  dsimp only
  split
  · rfl
  · rename_i hexcess
    -- A power of ten beyond `10³⁸` is larger than every coefficient.
    have hpow : (10 : Nat) ^ 39 ≤ 10 ^ (s - maxScale) :=
      Nat.pow_le_pow_right (by decide) (Nat.succ_le_of_lt (Nat.lt_of_not_le hexcess))
    have hsmall : c.natAbs < 10 ^ 39 := by
      unfold InRange minCoefficient maxCoefficient at h
      omega
    have hzero : (c.tdiv (tenTo (s - maxScale))).natAbs = 0 := by
      rw [Int.natAbs_tdiv, tenTo_eq, Int.natAbs_pow]
      exact Nat.div_eq_of_lt (Nat.lt_of_lt_of_le hsmall hpow)
    exact (Int.natAbs_eq_zero.1 hzero).symm

theorem value_ofCoefficient_eq (h : InRange c) :
    (ofCoefficient c s).value = truncated (c / 10 ^ s) (min maxScale s) := by
  have hten : (10 : ℚ) ≠ 0 := by norm_num
  -- The places are those that are kept and those that are too many.
  have hsplit : s = min s maxScale + (s - maxScale) := by omega
  have hmin : (min (maxScale : ℤ) s) = ((min s maxScale : ℕ) : ℤ) := by
    push_cast
    exact min_comm _ _
  have hmoved : (c : ℚ) / 10 ^ s * 10 ^ min s maxScale = c / ((10 ^ (s - maxScale) : ℕ) : ℚ) := by
    push_cast
    rw [div_mul_eq_mul_div, div_eq_div_iff (pow_ne_zero _ hten) (pow_ne_zero _ hten), mul_assoc,
      ← pow_add, ← hsplit]
  rw [ofCoefficient, value_strip, truncated, hmin, zpow_natCast, hmoved, towardZero_div_natCast,
    towardZero_intCast, cut_eq_tdiv h, tenTo_eq]
  push_cast
  rfl

/-- A quotient by a power of ten has no more places than the power. -/
theorem endsWithin_div_pow (c : Int) (s : Nat) : EndsWithin ((c : ℚ) / 10 ^ s) s :=
  ⟨c, by rw [zpow_natCast]⟩

/-- Behind the places that there are nothing is cut off, so it is enough to name the most that there
may be. -/
theorem value_ofCoefficient_truncated (h : InRange c) :
    (ofCoefficient c s).value = truncated (c / 10 ^ s) maxScale := by
  rw [value_ofCoefficient_eq h, (endsWithin_div_pow c s).truncated_min]

/-- A number ends where numbers have to end. -/
theorem Canonical.endsWithin {n : Decimal} (h : n.Canonical) : EndsWithin n.value maxScale :=
  (endsWithin_div_pow n.coefficient n.scale).mono (by exact_mod_cast h.scale_le)

end Coefficients

end LineScript.Decimal
