import LineScript.Machine.Run
import LineScript.Proofs.Decimal.Range
import LineScript.Proofs.Decimal.Truncation

/-!
# The order of numbers

Numbers are ordered by the part before the point and then by the part after it, the latter with 38
digits, so that no two coefficients have to be brought to the same scale. The part before the point
is the value cut toward zero, and a cut keeps the order: where these parts differ they decide. Where
they are the same, the parts after the point differ as the values do, whatever the sign. So the
order is that of the values (`compare_eq_cmp`).

Both parts, and what is formed on the way to them, are in range (`checkedParts_eq`).
-/

set_option autoImplicit false

namespace LineScript

namespace Decimal

variable {a b : Decimal}

/-! ## The two parts -/

/-- The parts before and after the point, with a check of every number that is formed on the way. -/
def checkedParts (a : Decimal) : Except DecimalError (Int × Int) := do
  let unit ← checked (tenTo a.scale)
  let rest ← checked (a.coefficient.tmod unit)
  let shift ← checked (tenTo (maxScale - a.scale))
  let fraction ← checked (rest * shift)
  let whole ← checked (a.coefficient.tdiv unit)
  pure (whole, fraction)

theorem inRange_tenTo {n : Nat} (h : n ≤ maxScale) : InRange (tenTo n) := by
  have hle : (10 : ℤ) ^ n ≤ 10 ^ 38 := pow_le_pow_right₀ (by decide) h
  have hpos := tenTo_pos n
  rw [tenTo_eq] at *
  unfold InRange minCoefficient maxCoefficient
  omega

/-- The part after the point has no more than 38 digits. -/
theorem natAbs_fraction_lt (h : a.scale ≤ maxScale) : a.fraction.natAbs < 10 ^ 38 := by
  have hrest : (a.coefficient.tmod (tenTo a.scale)).natAbs < 10 ^ a.scale := by
    rw [Int.natAbs_tmod, tenTo_eq, Int.natAbs_pow]
    exact Nat.mod_lt _ (Nat.pow_pos (by decide))
  have hshift : 0 < 10 ^ (maxScale - a.scale) := Nat.pow_pos (by decide)
  calc a.fraction.natAbs
      = (a.coefficient.tmod (tenTo a.scale)).natAbs * 10 ^ (maxScale - a.scale) := by
        rw [fraction, Int.natAbs_mul, tenTo_eq (maxScale - a.scale), Int.natAbs_pow]
        rfl
    _ < 10 ^ a.scale * 10 ^ (maxScale - a.scale) := Nat.mul_lt_mul_of_pos_right hrest hshift
    _ = 10 ^ 38 := by rw [← pow_add, Nat.add_sub_cancel' h, maxScale]

/-- Nothing that is formed on the way to the parts is out of range. -/
theorem checkedParts_eq (h : a.Canonical) : a.checkedParts = .ok (a.wholePart, a.fraction) := by
  have hunit : InRange (tenTo a.scale) := inRange_tenTo h.scale_le
  have hrest : InRange (a.coefficient.tmod (tenTo a.scale)) := inRange_tmod _ h.inRange
  have hshift : InRange (tenTo (maxScale - a.scale)) := inRange_tenTo (Nat.sub_le _ _)
  -- The largest coefficient has 39 digits, so there is room for any 38.
  have hfraction : InRange a.fraction := by
    have hlt := natAbs_fraction_lt h.scale_le
    unfold InRange minCoefficient maxCoefficient
    omega
  have hwhole : InRange a.wholePart := inRange_tdiv h.inRange (tenTo_pos _)
  simp only [checkedParts, bind_eq_ok_iff, checked_eq_ok_iff, pure_eq_ok_iff]
  exact ⟨_, ⟨hunit, rfl⟩, _, ⟨hrest, rfl⟩, _, ⟨hshift, rfl⟩, _, ⟨hfraction, rfl⟩, _,
    ⟨hwhole, rfl⟩, rfl⟩

/-- The part before the point is the value, cut toward zero. -/
theorem wholePart_eq (a : Decimal) : a.wholePart = towardZero a.value := by
  rw [wholePart, ← towardZero_intCast_div, value, tenTo_eq]
  push_cast
  rfl

/-- The two parts make up the value. -/
theorem value_eq_parts (h : a.scale ≤ maxScale) :
    a.value = a.wholePart + a.fraction / 10 ^ maxScale := by
  have hten : (10 : ℚ) ≠ 0 := by norm_num
  have hdivide : (a.coefficient : ℚ) =
      10 ^ a.scale * a.wholePart + a.coefficient.tmod (tenTo a.scale) := by
    have hint := Int.mul_tdiv_add_tmod a.coefficient (tenTo a.scale)
    rw [wholePart, tenTo_eq] at *
    exact_mod_cast hint.symm
  have hsplit : (10 : ℚ) ^ maxScale = 10 ^ a.scale * 10 ^ (maxScale - a.scale) := by
    rw [← pow_add, Nat.add_sub_cancel' h]
  have hfraction : (a.fraction : ℚ) / 10 ^ maxScale =
      a.coefficient.tmod (tenTo a.scale) / 10 ^ a.scale := by
    rw [fraction, hsplit, tenTo_eq (maxScale - a.scale)]
    push_cast
    exact mul_div_mul_right _ _ (pow_ne_zero _ hten)
  rw [hfraction, value, hdivide]
  field_simp

/-! ## The order -/

/-- **The order** of numbers is the order of their values. -/
theorem compare_eq_cmp (ha : a.Canonical) (hb : b.Canonical) :
    a.compare b = cmp a.value b.value := by
  -- Parts in front of the point that differ decide, since a cut keeps the order.
  have hwhole_less : ∀ {x y : Decimal}, x.wholePart < y.wholePart → x.value < y.value := by
    intro x y h
    rw [wholePart_eq, wholePart_eq] at h
    exact lt_of_not_ge fun hle => absurd h (not_lt.2 (towardZero_mono hle))
  symm
  apply Ordering.Compares.cmp_eq
  unfold compare
  cases hwhole : Ord.compare a.wholePart b.wholePart with
  | lt => exact hwhole_less (compare_lt_iff_lt.1 hwhole)
  | gt => exact hwhole_less (compare_gt_iff_gt.1 hwhole)
  | eq =>
    have hsame : a.wholePart = b.wholePart := compare_eq_iff_eq.1 hwhole
    have hfraction_less : ∀ {f g : ℤ} (w : ℤ), f < g →
        (w : ℚ) + f / 10 ^ maxScale < w + g / 10 ^ maxScale := by
      intro f g w h
      have hcast : (f : ℚ) < g := by exact_mod_cast h
      have hpow : (0 : ℚ) < 10 ^ maxScale := by positivity
      exact add_lt_add_right (div_lt_div_of_pos_right hcast hpow) _
    rw [value_eq_parts ha.scale_le, value_eq_parts hb.scale_le, hsame, Ordering.eq_then]
    cases hfraction : Ord.compare a.fraction b.fraction with
    | lt => exact hfraction_less _ (compare_lt_iff_lt.1 hfraction)
    | gt => exact hfraction_less _ (compare_gt_iff_gt.1 hfraction)
    | eq =>
      have hfractions : a.fraction = b.fraction := compare_eq_iff_eq.1 hfraction
      exact congrArg (fun f : ℤ => (b.wholePart : ℚ) + f / 10 ^ maxScale) hfractions

/-- Only a number and itself are equal in the order. -/
theorem compare_eq_eq_iff (ha : a.Canonical) (hb : b.Canonical) : a.compare b = .eq ↔ a = b := by
  rw [compare_eq_cmp ha hb, cmp_eq_eq_iff]
  exact ⟨eq_of_value_eq ha.last_ne hb.last_ne, congrArg value⟩

end Decimal

/-! ## Relations between numbers -/

/-- What an operator asks of two values. -/
def Relation.Holds : Relation → ℚ → ℚ → Prop
  | .equal, x, y => x = y
  | .notEqual, x, y => x ≠ y
  | .greater, x, y => y < x
  | .greaterEqual, x, y => y ≤ x
  | .less, x, y => x < y
  | .lessEqual, x, y => x ≤ y

instance : (op : Relation) → (x y : ℚ) → Decidable (op.Holds x y)
  | .equal, x, y => inferInstanceAs (Decidable (x = y))
  | .notEqual, x, y => inferInstanceAs (Decidable (x ≠ y))
  | .greater, x, y => inferInstanceAs (Decidable (y < x))
  | .greaterEqual, x, y => inferInstanceAs (Decidable (y ≤ x))
  | .less, x, y => inferInstanceAs (Decidable (x < y))
  | .lessEqual, x, y => inferInstanceAs (Decidable (x ≤ y))

/-- The one of less, equal and greater that an order is. -/
def Relation.ofOrdering : Ordering → Relation
  | .lt => .less
  | .eq => .equal
  | .gt => .greater

theorem Relation.holds_iff_ofOrdering {op : Relation} {x y : ℚ}
    (hop : op ∈ [Relation.less, .equal, .greater]) :
    op.Holds x y ↔ op = Relation.ofOrdering (cmp x y) := by
  simp only [List.mem_cons, List.not_mem_nil, or_false] at hop
  rcases hop with rfl | rfl | rfl
  · rw [Relation.Holds, ← cmp_eq_lt_iff]
    cases cmp x y <;> decide
  · rw [Relation.Holds, ← cmp_eq_eq_iff]
    cases cmp x y <;> decide
  · rw [Relation.Holds, ← cmp_eq_gt_iff]
    cases cmp x y <;> decide

/-- Of two rational numbers one is less, or they are equal, or one is greater. -/
theorem Relation.existsUnique_holds (x y : ℚ) :
    ∃! op : Relation, op ∈ [Relation.less, .equal, .greater] ∧ op.Holds x y := by
  have hmem : Relation.ofOrdering (cmp x y) ∈ [Relation.less, .equal, .greater] := by
    cases cmp x y <;> decide
  exact ⟨_, ⟨hmem, (holds_iff_ofOrdering hmem).2 rfl⟩, fun op h => (holds_iff_ofOrdering h.1).1 h.2⟩

/-- A relation between two registers is found to hold: the instruction is carried out, and its
result is true. -/
def State.Finds (s : State) (op : Relation) (left right result : Register) : Prop :=
  ∃ t, s.execute (.relate op left right result) = (t, none) ∧
    t.registers.get? result = some (.bool true)

section Relations

variable {a b : Decimal} {s : State} {left right result : Register}

/-- Operators find out what they ask of the values. -/
theorem Relation.apply_number (op : Relation) (ha : a.Canonical) (hb : b.Canonical) :
    op.apply (.number a) (.number b) = .ok (decide (op.Holds a.value b.value)) := by
  have horder : Value.order (.number a) (.number b) = .ok (cmp a.value b.value) := by
    rw [Value.order, Decimal.compare_eq_cmp ha hb]
  -- Equality is that of the records and not of the order, but for canonical numbers they are the
  -- same.
  have hsame : Value.same (.number a) (.number b) = decide (a.value = b.value) := by
    rw [Value.same, Bool.eq_iff_iff, beq_iff_eq, decide_eq_true_iff,
      ← Decimal.compare_eq_eq_iff ha hb, Decimal.compare_eq_cmp ha hb, cmp_eq_eq_iff]
  have hordered : ∀ (test : Ordering → Bool) {p : Prop} [Decidable p],
      (test (cmp a.value b.value) = true ↔ p) →
      (Value.order (.number a) (.number b)).map test = .ok (decide p) := by
    intro test p _ hp
    rw [horder]
    exact congrArg Except.ok (Bool.eq_iff_iff.2 (hp.trans decide_eq_true_iff.symm))
  cases op with
  | equal => exact congrArg Except.ok hsame
  | notEqual => exact congrArg Except.ok (by rw [hsame]; exact (decide_not).symm)
  | greater => exact hordered (· == .gt) (by rw [beq_iff_eq, cmp_eq_gt_iff, Relation.Holds])
  | greaterEqual =>
    exact hordered (· != .lt) (by rw [bne_iff_ne, ne_eq, cmp_eq_lt_iff, not_lt, Relation.Holds])
  | less => exact hordered (· == .lt) (by rw [beq_iff_eq, cmp_eq_lt_iff, Relation.Holds])
  | lessEqual =>
    exact hordered (· != .gt) (by rw [bne_iff_ne, ne_eq, cmp_eq_gt_iff, not_lt, Relation.Holds])

/-- The instruction for an operator between two numbers. -/
theorem State.execute_relate (op : Relation) (ha : a.Canonical) (hb : b.Canonical)
    (hleft : s.registers.get? left = some (.number a))
    (hright : s.registers.get? right = some (.number b)) :
    s.execute (.relate op left right result) =
      ({ s with registers := s.registers.set result (.bool (decide (op.Holds a.value b.value))) },
        none) := by
  have heffect : (Instruction.relate op left right result).effect s.registers =
      .ok (.write result (.bool (decide (op.Holds a.value b.value)))) := by
    simp only [Instruction.effect, bind_eq_ok_iff, Registers.read_eq_ok_iff, pure_eq_ok_iff]
    exact ⟨_, hleft, _, hright, _, op.apply_number ha hb, rfl⟩
  rw [State.execute, heffect]
  rfl

theorem State.finds_iff (op : Relation) (ha : a.Canonical) (hb : b.Canonical)
    (hleft : s.registers.get? left = some (.number a))
    (hright : s.registers.get? right = some (.number b)) :
    s.Finds op left right result ↔ op.Holds a.value b.value := by
  have hresult := fun v => Registers.get?_set s.registers result result (.bool v)
  unfold State.Finds
  rw [State.execute_relate op ha hb hleft hright]
  constructor
  · rintro ⟨t, ht, htrue⟩
    obtain rfl := (Prod.mk.inj ht).1
    simpa [hresult] using htrue
  · intro h
    exact ⟨_, rfl, by simp [hresult, h]⟩

end Relations

namespace Decimal

variable {a b : Decimal}

/-- **The order of numbers.** For any two canonical numbers the order is the one of their values,
they are equal in it only if they are the same number, and nothing that is formed to find it is out
of range. Instructions for operators between them succeed and tell what holds of the values: exactly
one of less, equal and greater is found, and the other two are found exactly if it is one of
theirs. -/
theorem order_exact (ha : a.Canonical) (hb : b.Canonical) :
    a.checkedParts = .ok (a.wholePart, a.fraction) ∧
      b.checkedParts = .ok (b.wholePart, b.fraction) ∧
      a.compare b = cmp a.value b.value ∧ (a.compare b = .eq ↔ a = b) ∧
      ∀ (s : State) (left right result : Register), s.registers.get? left = some (.number a) →
        s.registers.get? right = some (.number b) →
        (∀ op : Relation, s.execute (.relate op left right result) =
          ({ s with
            registers := s.registers.set result (.bool (decide (op.Holds a.value b.value))) },
            none)) ∧
        (∃! op : Relation, op ∈ [Relation.less, .equal, .greater] ∧ s.Finds op left right result) ∧
        (s.Finds .lessEqual left right result ↔
          s.Finds .less left right result ∨ s.Finds .equal left right result) ∧
        (s.Finds .greaterEqual left right result ↔
          s.Finds .greater left right result ∨ s.Finds .equal left right result) := by
  refine ⟨checkedParts_eq ha, checkedParts_eq hb, compare_eq_cmp ha hb, compare_eq_eq_iff ha hb,
    fun s left right result hleft hright => ?_⟩
  have hfinds : ∀ op : Relation, s.Finds op left right result ↔ op.Holds a.value b.value :=
    fun op =>
    State.finds_iff op ha hb hleft hright
  simp only [hfinds]
  refine ⟨fun op => State.execute_relate op ha hb hleft hright, Relation.existsUnique_holds _ _,
    le_iff_lt_or_eq, ?_⟩
  exact le_iff_lt_or_eq.trans (or_congr_right eq_comm)

/-- The smallest coefficient and the least fraction below zero, which have no common scale. -/
theorem order_exact_noCommonScale :
    Canonical ⟨minCoefficient, 0⟩ ∧ Canonical ⟨-1, 38⟩ ∧
      compare ⟨minCoefficient, 0⟩ ⟨-1, 38⟩ = .lt ∧
      State.Finds ⟨⟨[some (.number ⟨minCoefficient, 0⟩), some (.number ⟨-1, 38⟩)]⟩, 0,
        Sink.new none⟩ .less 0 1 2 := by
  have hsmallest : Canonical ⟨minCoefficient, 0⟩ :=
    ⟨by decide, by decide, fun h => absurd h (by decide)⟩
  have hfraction : Canonical ⟨-1, 38⟩ := ⟨by decide, by decide, fun _ => by decide⟩
  obtain ⟨-, -, horder, -, hfinds⟩ := order_exact hsmallest hfraction
  have hless : Relation.less.Holds (value ⟨minCoefficient, 0⟩) (value ⟨-1, 38⟩) := by
    norm_num [Relation.Holds, value, minCoefficient]
  refine ⟨hsmallest, hfraction, by rw [horder, cmp_eq_lt_iff]; exact hless, ?_⟩
  obtain ⟨hexecute, -⟩ :=
    hfinds ⟨⟨[some (.number ⟨minCoefficient, 0⟩), some (.number ⟨-1, 38⟩)]⟩, 0, Sink.new none⟩ 0
      1 2 rfl rfl
  refine ⟨_, hexecute .less, ?_⟩
  rw [Registers.get?_set, if_pos rfl, decide_eq_true hless]

end Decimal

end LineScript
