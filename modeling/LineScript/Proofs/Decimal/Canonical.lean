import LineScript.Decimal.Text
import LineScript.Proofs.Machine.Instruction
import Mathlib.Algebra.Order.Field.Rat
import Mathlib.Tactic.FieldSimp
import Mathlib.Tactic.Ring

/-!
# Canonical numbers

A record stands for the rational number `Decimal.value`. Several records stand for the same one,
since a zero at the end of the places after the point adds nothing; `Decimal.Canonical` excludes
that zero, and what is out of range. Every way to come by a number (`Decimal.Produced`) ends in
`Decimal.ofCoefficient` or changes no more than a sign, so all numbers are canonical
(`Produced.canonical`), and canonical numbers with the same value are the same record
(`eq_of_value_eq`).
-/

set_option autoImplicit false

namespace LineScript.Decimal

variable {a b n : Decimal} {c : Int} {s : Nat}

/-! ## Values -/

/-- The rational number that a record stands for. -/
def value (a : Decimal) : ℚ := a.coefficient / 10 ^ a.scale

theorem value_eq_zero_iff : a.value = 0 ↔ a.coefficient = 0 := by
  rw [value, div_eq_zero_iff, or_iff_left (pow_ne_zero _ (by norm_num)), Int.cast_eq_zero]

/-- Dropping zeros behind the point keeps the value. -/
theorem value_strip (c : Int) (s : Nat) : (strip c s).value = c / 10 ^ s := by
  induction s generalizing c with
  | zero => rfl
  | succ s ih =>
    rw [strip]
    split
    · rename_i hlast
      obtain ⟨k, rfl⟩ : (10 : Int) ∣ c := Int.dvd_of_emod_eq_zero hlast
      rw [ih, Int.mul_ediv_cancel_left k (by decide), pow_succ]
      push_cast
      field_simp
    · rfl

theorem cut_of_le (h : s ≤ maxScale) : cut c s = c := by
  simp [cut, Nat.sub_eq_zero_of_le h, tenTo]

/-- Where no place is cut off, the value is kept. -/
theorem value_ofCoefficient (h : s ≤ maxScale) : (ofCoefficient c s).value = c / 10 ^ s := by
  rw [ofCoefficient, value_strip, cut_of_le h, Nat.min_eq_left h]

/-! ## Canonical form -/

/-- The coefficient is in range, there are not too many places, and the last of them is no zero. -/
structure Canonical (a : Decimal) : Prop where
  inRange : InRange a.coefficient
  scale_le : a.scale ≤ maxScale
  last_ne : 0 < a.scale → a.coefficient % 10 ≠ 0

/-- Of two records with the same value the one with more places has zeros at the end of its
coefficient. -/
theorem coefficient_eq_of_value_eq {k : Nat} (hscale : a.scale = b.scale + k)
    (h : a.value = b.value) : a.coefficient = b.coefficient * 10 ^ k := by
  have hten : (10 : ℚ) ≠ 0 := by norm_num
  rw [value, value, div_eq_div_iff (pow_ne_zero _ hten) (pow_ne_zero _ hten), hscale, pow_add] at h
  have hcancel : (a.coefficient : ℚ) = b.coefficient * 10 ^ k := by
    refine mul_right_cancel₀ (pow_ne_zero b.scale hten) ?_
    rw [h]
    ring
  exact_mod_cast hcancel

/-- Of two records without a zero at the end, the one with fewer places has not the value of the
other. -/
theorem scale_le_of_value_eq (hb : 0 < b.scale → b.coefficient % 10 ≠ 0) (h : a.value = b.value) :
    b.scale ≤ a.scale := by
  by_contra hlt
  obtain ⟨k, hk⟩ := Nat.exists_eq_add_of_lt (Nat.lt_of_not_le hlt)
  have hzero : b.coefficient = a.coefficient * 10 ^ k * 10 := by
    rw [coefficient_eq_of_value_eq (k := k + 1) hk h.symm, pow_succ, mul_assoc]
  exact hb (Nat.lt_of_le_of_lt (Nat.zero_le _) (Nat.lt_of_not_le hlt))
    (hzero ▸ Int.mul_emod_left _ _)

/-- Records without a zero at the end are the same if their values are. -/
theorem eq_of_value_eq (ha : 0 < a.scale → a.coefficient % 10 ≠ 0)
    (hb : 0 < b.scale → b.coefficient % 10 ≠ 0) (h : a.value = b.value) : a = b := by
  have hscale : a.scale = b.scale :=
    Nat.le_antisymm (scale_le_of_value_eq ha h.symm) (scale_le_of_value_eq hb h)
  have hcoefficient : a.coefficient = b.coefficient := by
    have hpow : (10 : ℚ) ^ b.scale ≠ 0 := pow_ne_zero _ (by norm_num)
    rw [value, value, hscale, div_left_inj' hpow] at h
    exact_mod_cast h
  obtain ⟨_, _⟩ := a
  obtain ⟨_, _⟩ := b
  simp_all

theorem inRange_ediv_ten (h : InRange c) : InRange (c / 10) := by
  unfold InRange minCoefficient maxCoefficient at *
  omega

theorem canonical_strip (hc : InRange c) (hs : s ≤ maxScale) : (strip c s).Canonical := by
  induction s generalizing c with
  | zero => exact ⟨hc, hs, fun h => absurd h (Nat.lt_irrefl 0)⟩
  | succ s ih =>
    rw [strip]
    split
    · exact ih (inRange_ediv_ten hc) (Nat.le_of_succ_le hs)
    · rename_i hlast
      exact ⟨hc, hs, fun _ => hlast⟩

/-- What lies between zero and a number in range is in range. -/
theorem inRange_of_between {d : Int} (hc : InRange c)
    (h : 0 ≤ d ∧ d ≤ c ∨ c ≤ d ∧ d ≤ 0) : InRange d := by
  unfold InRange minCoefficient maxCoefficient at *
  omega

/-- A quotient cut toward zero is not farther from zero than the dividend. -/
theorem inRange_tdiv {d : Int} (hc : InRange c) (hd : 0 < d) : InRange (c.tdiv d) := by
  refine inRange_of_between hc ?_
  rcases Int.le_total 0 c with hpos | hneg
  · exact Or.inl ⟨Int.tdiv_nonneg hpos hd.le, Int.tdiv_le_self d hpos⟩
  · have hle : (-c).tdiv d ≤ -c := Int.tdiv_le_self d (Int.neg_nonneg.2 hneg)
    have hnonneg : 0 ≤ (-c).tdiv d := Int.tdiv_nonneg (Int.neg_nonneg.2 hneg) hd.le
    rw [Int.neg_tdiv] at hle hnonneg
    exact Or.inr ⟨Int.neg_le_neg_iff.1 hle, Int.neg_nonneg.1 hnonneg⟩

/-- Nor is a remainder. -/
theorem inRange_tmod (d : Int) (hc : InRange c) : InRange (c.tmod d) := by
  have habs : (c.tmod d).natAbs ≤ c.natAbs := by
    rw [Int.natAbs_tmod]
    exact Nat.mod_le _ _
  refine inRange_of_between hc ?_
  rcases Int.le_total 0 c with hpos | hneg
  · have hnonneg : 0 ≤ c.tmod d := Int.tmod_nonneg d hpos
    omega
  · have hnonneg : 0 ≤ (-c).tmod d := Int.tmod_nonneg d (Int.neg_nonneg.2 hneg)
    rw [Int.neg_tmod] at hnonneg
    omega

theorem inRange_cut (s : Nat) (h : InRange c) : InRange (cut c s) := by
  simp only [cut]
  split
  · exact inRange_tdiv h (tenTo_pos _)
  · decide

theorem canonical_ofCoefficient (s : Nat) (h : InRange c) : (ofCoefficient c s).Canonical :=
  canonical_strip (inRange_cut s h) (Nat.min_le_right _ _)

/-- A canonical number is made of its own coefficient and scale. -/
theorem Canonical.ofCoefficient_eq (h : n.Canonical) : ofCoefficient n.coefficient n.scale = n :=
  eq_of_value_eq (canonical_ofCoefficient _ h.inRange).last_ne h.last_ne
    (value_ofCoefficient h.scale_le)

/-! ## Positions -/

/-- A position is a whole number, and so its own coefficient. -/
theorem toIndex?_eq_some_iff {i : Nat} :
    n.toIndex? = some i ↔ n = ⟨i, 0⟩ ∧ i < 0x10000000000000000 := by
  rw [toIndex?]
  constructor
  · intro hindex
    split at hindex
    · rename_i hposition
      obtain ⟨hint, hnonneg, hlt⟩ := hposition
      have hscale : n.scale = 0 := by simpa [isInteger] using hint
      have hnat := Option.some.inj hindex
      have hcoefficient : n.coefficient = i := by omega
      refine ⟨?_, by omega⟩
      obtain ⟨_, _⟩ := n
      simp_all
    · cases hindex
  · rintro ⟨rfl, hlt⟩
    have hbound : (i : ℤ) < 0x10000000000000000 := by exact_mod_cast hlt
    rw [if_pos ⟨rfl, Int.natCast_nonneg i, hbound⟩]
    rfl

/-! ## Every number is canonical -/

/-- The numbers that the operations make of nothing, of text and of one another. -/
inductive Produced : Decimal → Prop
  | ofCoefficient {c : Int} (s : Nat) (h : InRange c) : Produced (ofCoefficient c s)
  | ofNat {k : Nat} (h : k < 0x10000000000000000) : Produced (ofNat k)
  | parse {text : String} {n : Decimal} (h : parse text = .ok n) : Produced n
  | add {a b n : Decimal} (ha : Produced a) (hb : Produced b) (h : add a b = .ok n) : Produced n
  | sub {a b n : Decimal} (ha : Produced a) (hb : Produced b) (h : sub a b = .ok n) : Produced n
  | mul {a b n : Decimal} (ha : Produced a) (hb : Produced b) (h : mul a b = .ok n) : Produced n
  | div {a b n : Decimal} (ha : Produced a) (hb : Produced b) (h : div a b = .ok n) : Produced n
  | rem {a b n : Decimal} (ha : Produced a) (hb : Produced b) (h : rem a b = .ok n) : Produced n
  | neg {a n : Decimal} (ha : Produced a) (h : neg a = .ok n) : Produced n

theorem canonical_of_toDecimal {negative : Bool} {d : Digits} (h : d.toDecimal negative = .ok n) :
    n.Canonical := by
  unfold Digits.toDecimal at h
  dsimp only at h
  split at h
  · rename_i hfits
    obtain rfl := Except.ok.inj h
    refine canonical_ofCoefficient _ ?_
    have hmax := hfits.2
    unfold InRange minCoefficient maxCoefficient at *
    split <;> omega
  · cases h

theorem canonical_of_parse {text : String} (h : parse text = .ok n) : n.Canonical := by
  unfold parse at h
  dsimp only at h
  split at h
  · cases h
  · exact canonical_of_toDecimal h

theorem canonical_of_add (h : add a b = .ok n) : n.Canonical := by
  simp only [add, bind_eq_ok_iff, pure_eq_ok_iff, checked_eq_ok_iff] at h
  obtain ⟨p, _, sum, ⟨hsum, rfl⟩, rfl⟩ := h
  exact canonical_ofCoefficient _ hsum

theorem canonical_of_sub (h : sub a b = .ok n) : n.Canonical := by
  simp only [sub, bind_eq_ok_iff, pure_eq_ok_iff, checked_eq_ok_iff] at h
  obtain ⟨p, _, difference, ⟨hdifference, rfl⟩, rfl⟩ := h
  exact canonical_ofCoefficient _ hdifference

theorem canonical_of_mul (h : mul a b = .ok n) : n.Canonical := by
  simp only [mul, bind_eq_ok_iff, pure_eq_ok_iff, checked_eq_ok_iff] at h
  obtain ⟨product, ⟨hproduct, rfl⟩, rfl⟩ := h
  exact canonical_ofCoefficient _ hproduct

theorem canonical_of_div (h : div a b = .ok n) : n.Canonical := by
  unfold div at h
  split at h
  · cases h
  · split at h
    · cases h
    · simp only [bind_eq_ok_iff, checked_eq_ok_iff] at h
      obtain ⟨quotient, ⟨hquotient, rfl⟩, h⟩ := h
      split at h
      · obtain rfl := pure_eq_ok_iff.1 h
        exact canonical_ofCoefficient _ hquotient
      · simp only [bind_eq_ok_iff, checked_eq_ok_iff, pure_eq_ok_iff] at h
        obtain ⟨whole, ⟨hwhole, rfl⟩, rfl⟩ := h
        exact canonical_ofCoefficient _ hwhole

theorem canonical_of_rem (h : rem a b = .ok n) : n.Canonical := by
  unfold rem at h
  split at h
  · cases h
  · simp only [align, rescale, bind_eq_ok_iff, pure_eq_ok_iff, checked_eq_ok_iff] at h
    obtain ⟨p, ⟨left, ⟨hleft, rfl⟩, _, _, rfl⟩, _, _, rfl⟩ := h
    exact canonical_ofCoefficient _ (inRange_tmod _ hleft)

/-- A number with the other sign has its zeros where it had them. -/
theorem canonical_of_neg (ha : a.Canonical) (h : neg a = .ok n) : n.Canonical := by
  simp only [neg, bind_eq_ok_iff, pure_eq_ok_iff, checked_eq_ok_iff] at h
  obtain ⟨_, ⟨hrange, rfl⟩, rfl⟩ := h
  refine ⟨hrange, ha.scale_le, fun hpos hlast => ha.last_ne hpos ?_⟩
  dsimp only at hlast
  omega

/-- **Every number is canonical.** -/
theorem Produced.canonical (h : Produced n) : n.Canonical := by
  induction h with
  | ofCoefficient s h => exact canonical_ofCoefficient s h
  | ofNat h =>
    refine canonical_ofCoefficient 0 ?_
    unfold InRange minCoefficient maxCoefficient
    omega
  | parse h => exact canonical_of_parse h
  | add _ _ h => exact canonical_of_add h
  | sub _ _ h => exact canonical_of_sub h
  | mul _ _ h => exact canonical_of_mul h
  | div _ _ h => exact canonical_of_div h
  | rem _ _ h => exact canonical_of_rem h
  | neg _ h ih => exact canonical_of_neg ih h

end LineScript.Decimal
