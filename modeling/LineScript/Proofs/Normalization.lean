import LineScript.Proofs.Decimal.Truncation

/-!
# Numbers are normalized

A coefficient in range and any number of places make one canonical number, with the value that they
stand for, cut toward zero to 38 places. The places may be more than a power of ten in range could
express; then nothing is left of the coefficient. All numbers are made that way or differ from such
a number in the sign only, so all of them are canonical, and two of them have the same value only if
they are the same record (`numbers_normalized`).

Among canonical numbers the whole ones are those without places (`Canonical.isInteger_iff`), and
positions in a sequence are read off the value (`Canonical.toIndex?_eq_some_iff`).
-/

set_option autoImplicit false

namespace LineScript.Decimal

variable {a b n : Decimal}

/-! ## Whole numbers -/

/-- Zero has no places. -/
theorem Canonical.eq_zero (h : n.Canonical) (hzero : n.value = 0) : n = zero := by
  refine eq_of_value_eq h.last_ne (fun hpos => absurd hpos (by decide)) ?_
  rw [hzero]
  exact (value_eq_zero_iff.2 rfl).symm

theorem value_whole (k : ℤ) : value ⟨k, 0⟩ = k := by
  rw [value, pow_zero, div_one]

/-- A whole value has no places. -/
theorem Canonical.value_eq_intCast_iff (h : n.Canonical) {k : ℤ} : n.value = k ↔ n = ⟨k, 0⟩ := by
  constructor
  · intro hvalue
    exact eq_of_value_eq h.last_ne (fun hpos => absurd hpos (Nat.lt_irrefl 0))
      (hvalue.trans (value_whole k).symm)
  · rintro rfl
    exact value_whole k

theorem Canonical.isInteger_iff (h : n.Canonical) : n.isInteger = true ↔ ∃ k : ℤ, n.value = k := by
  constructor
  · intro hint
    have hscale : n.scale = 0 := by simpa [isInteger] using hint
    exact ⟨n.coefficient, by rw [value, hscale, pow_zero, div_one]⟩
  · rintro ⟨k, hk⟩
    rw [h.value_eq_intCast_iff.1 hk]
    rfl

/-- The positions are the whole numbers from zero that a word of 64 bits holds. -/
theorem Canonical.toIndex?_eq_some_iff (h : n.Canonical) {i : Nat} :
    n.toIndex? = some i ↔ n.value = i ∧ i < 0x10000000000000000 := by
  have hcast : n.value = i ↔ n = ⟨(i : ℤ), 0⟩ := by
    rw [← h.value_eq_intCast_iff]
    norm_cast
  rw [hcast, Decimal.toIndex?_eq_some_iff]

/-! ## Equality -/

theorem Produced.eq_iff_value_eq (ha : Produced a) (hb : Produced b) : a = b ↔ a.value = b.value :=
  ⟨congrArg value, eq_of_value_eq ha.canonical.last_ne hb.canonical.last_ne⟩

/-- **Numbers are normalized.** Whatever coefficient in range and whatever number of places a number
is made of, it has at most 38 places, none if it is zero, and the last of them is not zero; its
value is the one that coefficient and places stand for, cut toward zero to 38 places, so nothing is
cut off if there were no more. Every number that comes of a natural number, of text or of an
operation on such numbers is of this form, it is an integer exactly if its value is whole, and it is
equal to another one exactly if their values are equal. -/
theorem numbers_normalized :
    (∀ (c : Int) (s : Nat), InRange c →
      InRange (ofCoefficient c s).coefficient ∧ (ofCoefficient c s).scale ≤ 38 ∧
      ((ofCoefficient c s).value = 0 → ofCoefficient c s = ⟨0, 0⟩) ∧
      (0 < (ofCoefficient c s).scale → (ofCoefficient c s).coefficient % 10 ≠ 0) ∧
      (ofCoefficient c s).value = truncated (c / 10 ^ s) 38 ∧
      (s ≤ 38 → (ofCoefficient c s).value = c / 10 ^ s)) ∧
      (∀ n, Produced n →
        n.Canonical ∧ (n.value = 0 → n = ⟨0, 0⟩) ∧ (n.isInteger = true ↔ ∃ k : ℤ, n.value = k)) ∧
      ∀ a b, Produced a → Produced b → (a = b ↔ a.value = b.value) := by
  refine ⟨fun c s hc => ?_, fun n hn => ?_, fun a b ha hb => ha.eq_iff_value_eq hb⟩
  · have h := canonical_ofCoefficient s hc
    exact ⟨h.inRange, h.scale_le, h.eq_zero, h.last_ne, value_ofCoefficient_truncated hc,
      fun hle => value_ofCoefficient hle⟩
  · exact ⟨hn.canonical, hn.canonical.eq_zero, hn.canonical.isInteger_iff⟩

/-- The smallest coefficient with 76 places is one unit of the 38th place, with the most places that
a word of 32 bits counts it is zero, and a number that is read is the same as one that is computed
if they have the same value. -/
theorem numbers_normalized_smallestCoefficient :
    (ofCoefficient minCoefficient 76 = ⟨-1, 38⟩ ∧
      value ⟨-1, 38⟩ = truncated ((minCoefficient : ℚ) / 10 ^ 76) 38) ∧
    ofCoefficient minCoefficient 0xffffffff = ⟨0, 0⟩ ∧
    (parse "0.50" = .ok ⟨5, 1⟩ ∧ mul ⟨5, 1⟩ ⟨2, 0⟩ = .ok ⟨1, 0⟩ ∧
      (isInteger ⟨1, 0⟩ = true ↔ ∃ k : ℤ, value ⟨1, 0⟩ = k) ∧
      ((⟨1, 0⟩ : Decimal) = ofNat 1 ↔ value ⟨1, 0⟩ = value (ofNat 1))) := by
  have hmin : InRange minCoefficient := by decide
  have hsmall : ofCoefficient minCoefficient 76 = ⟨-1, 38⟩ := by decide
  have hhalf : parse "0.50" = .ok ⟨5, 1⟩ := rfl
  have htwo : parse "2" = .ok ⟨2, 0⟩ := rfl
  have hmul : mul ⟨5, 1⟩ ⟨2, 0⟩ = .ok ⟨1, 0⟩ := by decide
  have hproduced : Produced ⟨1, 0⟩ := .mul (.parse hhalf) (.parse htwo) hmul
  refine ⟨⟨hsmall, ?_⟩, by decide, hhalf, hmul, ?_, ?_⟩
  · exact hsmall ▸ (numbers_normalized.1 minCoefficient 76 hmin).2.2.2.2.1
  · exact (numbers_normalized.2.1 _ hproduced).2.2
  · exact numbers_normalized.2.2 _ _ hproduced (.ofNat (by decide))

end LineScript.Decimal
