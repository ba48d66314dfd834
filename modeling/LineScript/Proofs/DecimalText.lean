import LineScript.Proofs.Decimal.Digits

/-!
# Decimal text round-trips

Writing pads the digits of the coefficient until one of them is left in front of the point, and puts
the point in front of the last `scale` digits: `Decimal.digits` are the digits it writes
(`render_eq`). For a canonical number none of them could be left out (`canonical_digits`), so the
text is the only one without needless zeros that stands for the number; and reading it gives the
same coefficient and the same scale again.

The smallest coefficient of all is written like any other, but its text is not read: reading forms
the magnitude first, and that is out of range.
-/

set_option autoImplicit false

namespace LineScript.Decimal

variable {a b n : Decimal}

/-! ## The digits that are written -/

/-- The digits of the coefficient, at least one more than there are places. -/
def padded (a : Decimal) : List Char := (natDigits a.coefficient.natAbs).leftpad (a.scale + 1) '0'

/-- The digits of a number around its point. -/
def digits (a : Decimal) : Digits :=
  ⟨a.padded.take (a.padded.length - a.scale), a.padded.drop (a.padded.length - a.scale)⟩

theorem scale_lt_length_padded (a : Decimal) : a.scale < a.padded.length := by
  rw [padded, List.length_leftpad]
  exact Nat.lt_of_lt_of_le (Nat.lt_succ_self _) (Nat.le_max_left _ _)

theorem digits_append (a : Decimal) : a.digits.whole ++ a.digits.fraction = a.padded :=
  List.take_append_drop _ _

theorem length_whole (a : Decimal) : a.digits.whole.length = a.padded.length - a.scale := by
  simp [digits]

theorem length_fraction (a : Decimal) : a.digits.fraction.length = a.scale := by
  have hlt := a.scale_lt_length_padded
  simp only [digits, List.length_drop]
  omega

theorem isDigit_padded (a : Decimal) : ∀ c ∈ a.padded, c.isDigit = true := by
  intro c hc
  rcases List.mem_append.1 hc with hc | hc
  · rw [List.eq_of_mem_replicate hc]
    decide
  · exact Nat.isDigit_of_mem_toDigits (by decide) (by decide) hc

theorem digits_wf (a : Decimal) : a.digits.WF where
  whole_ne h := by
    have hlength := a.length_whole
    have hlt := a.scale_lt_length_padded
    rw [h, List.length_nil] at hlength
    omega
  whole_isDigit c hc := a.isDigit_padded c (List.mem_of_mem_take hc)
  fraction_isDigit c hc := a.isDigit_padded c (List.mem_of_mem_drop hc)

theorem digitsValue_digits (a : Decimal) :
    digitsValue (a.digits.whole ++ a.digits.fraction) = a.coefficient.natAbs := by
  rw [digits_append, padded, digitsValue_leftpad, digitsValue_natDigits]

theorem magnitudeChars_eq (a : Decimal) : a.magnitudeChars = a.digits.chars := by
  have hlength := a.length_fraction
  unfold magnitudeChars Digits.chars
  split
  · rename_i hscale
    have hpos : 0 < (natDigits a.coefficient.natAbs).length := Nat.length_toDigits_pos
    rw [if_pos (List.eq_nil_of_length_eq_zero (hlength.trans hscale))]
    simp [digits, padded, hscale, List.leftpad, Nat.sub_eq_zero_of_le hpos]
  · rename_i hscale
    rw [if_neg fun hnil => hscale (by rw [← hlength, hnil, List.length_nil])]
    rfl

/-- A number is written with a sign and its digits. -/
theorem render_eq (a : Decimal) : a.render = a.digits.text (decide (a.coefficient < 0)) := by
  unfold render chars Digits.text
  simp only [magnitudeChars_eq, decide_eq_true_eq]

/-- Sign and digits make up the coefficient and the scale. -/
theorem record_digits (a : Decimal) : a.digits.record (decide (a.coefficient < 0)) = a := by
  have hcoefficient : (if decide (a.coefficient < 0) = true then (-1 : Int) else 1) *
      a.coefficient.natAbs = a.coefficient := by
    simp only [decide_eq_true_eq]
    split <;> omega
  simp only [Digits.record, digitsValue_digits, hcoefficient, length_fraction]

theorem value_digits (a : Decimal) : a.digits.value (decide (a.coefficient < 0)) = a.value := by
  rw [← Digits.value_record, record_digits]

/-- Digits of a number that is longer than its places do not begin with a zero. -/
theorem head_natDigits {k : Nat} (hk : 0 < k) : (natDigits k).head? ≠ some '0' := by
  intro hhead
  obtain ⟨rest, hrest⟩ := List.head?_eq_some_iff.1 hhead
  have hvalue := digitsValue_natDigits k
  have hdigits : ∀ c ∈ rest, c.isDigit = true := fun c hc =>
    Nat.isDigit_of_mem_toDigits (by decide) (by decide) (hrest ▸ List.mem_cons_of_mem _ hc)
  -- The zero adds nothing to the value, so there would be fewer digits.
  have hlt := digitsValue_lt hdigits
  rw [hrest, digitsValue_cons] at hvalue
  have hzero : digitValue '0' = 0 := rfl
  rw [hzero, Nat.mul_zero, Nat.zero_add] at hvalue
  rcases Nat.eq_zero_or_pos rest.length with hnil | hpos
  · rw [List.eq_nil_of_length_eq_zero hnil] at hvalue
    exact absurd hvalue (Nat.ne_of_lt hk)
  · have hfew : (natDigits k).length ≤ rest.length :=
      (Nat.length_toDigits_le_iff (by decide) hpos).2 (hvalue ▸ hlt)
    rw [hrest, List.length_cons] at hfew
    omega

/-- The digits of a canonical number have no needless zero. -/
theorem canonical_digits (h : a.Canonical) : a.digits.Canonical (decide (a.coefficient < 0)) where
  toWF := a.digits_wf
  no_leading_zero hne hhead := by
    have hlt := a.scale_lt_length_padded
    have hwhole := a.length_whole
    by_cases hlength : (natDigits a.coefficient.natAbs).length ≤ a.scale + 1
    · -- One digit is in front of the point.
      have hone : a.digits.whole.length = 1 := by
        rw [hwhole, padded, List.length_leftpad, Nat.max_eq_left hlength]
        omega
      obtain ⟨c, hc⟩ := List.length_eq_one_iff.1 hone
      rw [hc] at hhead hne
      exact hne (by simpa using hhead)
    · -- The first digit is the first one of the coefficient.
      have hpadded : a.padded = natDigits a.coefficient.natAbs := by
        rw [padded, List.leftpad, Nat.sub_eq_zero_of_le (by omega), List.replicate_zero,
          List.nil_append]
      have hpos : 0 < a.coefficient.natAbs := by
        rcases Nat.eq_zero_or_pos a.coefficient.natAbs with hzero | hpos
        · rw [hzero] at hlength
          exact absurd (Nat.le_add_left 1 a.scale) hlength
        · exact hpos
      refine head_natDigits hpos ?_
      rw [← hpadded, ← digits_append, List.head?_append, hhead]
      rfl
  no_trailing_zero hlast := by
    obtain ⟨front, hfront⟩ := List.getLast?_eq_some_iff.1 hlast
    have hscale : 0 < a.scale := by
      rw [← a.length_fraction, hfront, List.length_append]
      exact Nat.succ_pos _
    have hvalue := a.digitsValue_digits
    rw [hfront, ← List.append_assoc, digitsValue_concat, show digitValue '0' = 0 from rfl] at hvalue
    have hne := h.last_ne hscale
    omega
  no_negative_zero hneg hzero := by
    have hvalue := a.digitsValue_digits
    rw [hzero.1, hzero.2] at hvalue
    have hlt : a.coefficient < 0 := of_decide_eq_true hneg
    have hnat : a.coefficient.natAbs = 0 := hvalue.symm
    omega

/-! ## Reading what was written -/

/-- A fraction that does not end with a zero loses nothing. -/
theorem Digits.trim_eq {d : Digits} (h : d.fraction.getLast? ≠ some '0') : d.trim = d := by
  have hdrop : d.fraction.reverse.dropWhile (· == '0') = d.fraction.reverse := by
    rcases hrev : d.fraction.reverse with _ | ⟨c, rest⟩
    · rfl
    · have hc : c ≠ '0' := by
        rintro rfl
        rw [List.getLast?_eq_head?_reverse, hrev] at h
        exact h rfl
      rw [List.dropWhile_cons_of_neg (by simpa using hc)]
  rw [trim, hdrop, List.reverse_reverse]

/-- **Reading undoes writing.** -/
theorem parse_render (h : n.Canonical) (hmin : n.coefficient ≠ minCoefficient) :
    parse n.render = .ok n := by
  have hrecord := n.record_digits
  have hrange := h.inRange
  have hmagnitude : (n.coefficient.natAbs : Int) ≤ maxCoefficient := by
    unfold InRange minCoefficient maxCoefficient at *
    omega
  have hfits : n.digits.fraction.length ≤ maxScale ∧
      (digitsValue (n.digits.whole ++ n.digits.fraction) : Int) ≤ maxCoefficient := by
    rw [length_fraction, digitsValue_digits]
    exact ⟨h.scale_le, hmagnitude⟩
  rw [render_eq, Digits.parse_text n.digits_wf, Digits.toDecimal]
  rw [Digits.trim_eq (canonical_digits h).no_trailing_zero, if_pos hfits]
  refine congrArg _ (Eq.trans ?_ h.ofCoefficient_eq)
  rw [length_fraction, digitsValue_digits]
  congr 1
  simp only [decide_eq_true_eq]
  split <;> omega

/-! ## What is read -/

/-- Only digits around a point are read. -/
theorem Digits.parse?_eq_some {chars : List Char} {d : Digits} (h : parse? chars = some d) :
    d.WF ∧ chars = d.chars := by
  obtain ⟨e, hsplit, h⟩ := Option.bind_eq_some_iff.1 h
  split at h
  · rename_i hall
    obtain rfl := Option.some.inj h
    refine ⟨⟨hall.1, List.all_eq_true.1 hall.2.1, List.all_eq_true.1 hall.2.2⟩, ?_⟩
    have hwhole := List.takeWhile_append_dropWhile (p := (· != '.')) (l := chars)
    unfold split? at hsplit
    dsimp only at hsplit
    split at hsplit
    · rename_i hrest
      obtain rfl := Option.some.inj hsplit
      rw [hrest, List.append_nil] at hwhole
      exact hwhole.symm
    · cases hsplit
    · rename_i point fraction hne hrest
      obtain rfl := Option.some.inj hsplit
      -- What the splitting stops at is a point.
      have hpoint : point = '.' := by
        have hhead := List.head?_dropWhile_not (· != '.') chars
        rw [hrest] at hhead
        simpa using hhead
      have hfraction : fraction ≠ [] := fun heq => hne heq
      rw [hrest, hpoint] at hwhole
      rw [Digits.chars, if_neg hfraction]
      exact hwhole.symm
  · cases h

/-- Text is a sign and digits around a point, or it is malformed. -/
theorem parse_cases (text : String) :
    (∃ negative d, Digits.WF d ∧ text = Digits.text negative d ∧
      parse text = d.toDecimal negative) ∨ parse text = .error (.malformed text) := by
  have htext := String.ofList_toList (s := text)
  unfold parse
  split
  rename_i negative unsigned hsign
  split
  · exact Or.inr rfl
  · rename_i d hd
    obtain ⟨hwf, rfl⟩ := Digits.parse?_eq_some hd
    refine Or.inl ⟨negative, d, hwf, ?_, rfl⟩
    split at hsign
    · rename_i rest hlist
      obtain ⟨rfl, rfl⟩ := Prod.mk.inj hsign
      rw [← htext, hlist]
      rfl
    · obtain ⟨rfl, hlist⟩ := Prod.mk.inj hsign
      rw [← htext, hlist]
      rfl

/-- Only signs and digits around a point are read. -/
theorem parse_eq_ok {text : String} (h : parse text = .ok n) :
    ∃ negative d, d.WF ∧ text = Digits.text negative d ∧ d.toDecimal negative = .ok n := by
  rcases parse_cases text with ⟨negative, d, hwf, htext, hread⟩ | herror
  · exact ⟨negative, d, hwf, htext, hread.symm.trans h⟩
  · rw [h] at herror
    cases herror

/-- Dropping zeros makes no coefficient larger. -/
theorem natAbs_strip_le (c : Int) (s : Nat) : (strip c s).coefficient.natAbs ≤ c.natAbs := by
  induction s generalizing c with
  | zero => exact Nat.le_refl _
  | succ s ih =>
    rw [strip]
    split
    · exact (ih (c / 10)).trans (by omega)
    · exact Nat.le_refl _

/-- The smallest coefficient is not read. -/
theorem coefficient_ne_of_parse {text : String} (h : parse text = .ok n) :
    n.coefficient ≠ minCoefficient := by
  obtain ⟨negative, d, _, _, h⟩ := parse_eq_ok h
  unfold Digits.toDecimal at h
  dsimp only at h
  split at h
  · rename_i hfits
    obtain rfl := Except.ok.inj h
    rw [ofCoefficient, cut_of_le hfits.1, Nat.min_eq_left hfits.1]
    intro hmin
    have hmax := hfits.2
    have hle := natAbs_strip_le
      (if negative = true then -(digitsValue (d.trim.whole ++ d.trim.fraction) : Int)
      else digitsValue (d.trim.whole ++ d.trim.fraction)) d.trim.fraction.length
    rw [hmin] at hle
    unfold minCoefficient maxCoefficient at *
    split at hle <;> omega
  · cases h

/-- Only zeros are left out at the end of a fraction. -/
theorem Digits.fraction_eq (d : Digits) :
    ∃ k, d.fraction = d.trim.fraction ++ List.replicate k '0' := by
  have hsplit := List.takeWhile_append_dropWhile (p := (· == '0')) (l := d.fraction.reverse)
  obtain ⟨k, hzeros⟩ : ∃ k, d.fraction.reverse.takeWhile (· == '0') = List.replicate k '0' := by
    refine ⟨_, List.eq_replicate_of_mem fun c hc => ?_⟩
    simpa using List.mem_takeWhile_imp hc
  refine ⟨k, ?_⟩
  rw [hzeros] at hsplit
  have hreverse := congrArg List.reverse hsplit
  rw [List.reverse_append, List.reverse_replicate, List.reverse_reverse] at hreverse
  exact hreverse.symm

/-- Zeros at the end of a fraction add nothing to the value. -/
theorem Digits.value_trim (negative : Bool) (d : Digits) :
    d.trim.value negative = d.value negative := by
  obtain ⟨k, hfraction⟩ := d.fraction_eq
  have hdigits : digitsValue (d.whole ++ d.fraction) =
      10 ^ k * digitsValue (d.trim.whole ++ d.trim.fraction) := by
    rw [hfraction, ← List.append_assoc, digitsValue_eq, digitsValue_eq, Nat.ofDigitChars_append,
      Nat.ofDigitChars_replicate_zero]
    rfl
  rw [value, value, hdigits, hfraction, List.length_append, List.length_replicate, pow_add]
  push_cast
  field_simp

/-- What is read has the value of the text. -/
theorem value_of_toDecimal {negative : Bool} {d : Digits} (h : d.toDecimal negative = .ok n) :
    n.value = d.value negative := by
  unfold Digits.toDecimal at h
  dsimp only at h
  split at h
  · rename_i hfits
    obtain rfl := Except.ok.inj h
    rw [value_ofCoefficient hfits.1, ← Digits.value_trim, Digits.value]
    cases negative
    · simp
    · simp
  · cases h

/-- **Decimal text round-trips.** Every number but the smallest coefficients is read back from its
text. What is read has the value of what was written, and is written in the only way that stands for
that value without needless zeros and without a sign on zero. Numbers are written alike exactly if
they have the same value. -/
theorem text_round_trips :
    (∀ n, Produced n → n.coefficient ≠ minCoefficient → parse n.render = .ok n) ∧
      (∀ text n, parse text = .ok n →
        (∃ negative d, Digits.WF d ∧ text = Digits.text negative d ∧ d.value negative = n.value) ∧
        (∃ negative d, Digits.Canonical negative d ∧ n.render = Digits.text negative d ∧
          d.value negative = n.value) ∧ ∀ negative d, Digits.Canonical negative d →
            d.value negative = n.value → Digits.text negative d = n.render) ∧
      ∀ a b, Produced a → Produced b → (a.render = b.render ↔ a.value = b.value) := by
  refine ⟨fun n h hmin => parse_render h.canonical hmin, fun text n h => ?_,
    fun a b ha hb => ⟨fun h => ?_, fun h => ?_⟩⟩
  · have hcanonical := canonical_digits (canonical_of_parse h)
    obtain ⟨negative, d, hwf, htext, hd⟩ := parse_eq_ok h
    refine ⟨⟨negative, d, hwf, htext, (value_of_toDecimal hd).symm⟩,
      ⟨_, _, hcanonical, n.render_eq, n.value_digits⟩, fun other e he hvalue => ?_⟩
    obtain ⟨rfl, rfl⟩ := he.unique hcanonical (hvalue.trans n.value_digits.symm)
    exact n.render_eq.symm
  · rw [render_eq, render_eq] at h
    obtain ⟨hneg, hdigits⟩ := Digits.text_inj a.digits_wf b.digits_wf h
    rw [← value_digits, ← value_digits, hneg, hdigits]
  · rw [eq_of_value_eq ha.canonical.last_ne hb.canonical.last_ne h]

/-- A quotient is read back from its text, zeros that say nothing are not written again, and one is
written like the quotient only if it is equal to it. -/
theorem text_round_trips_negativeEighth :
    (div ⟨1, 0⟩ ⟨-8, 0⟩ = .ok ⟨-125, 3⟩ ∧
      render ⟨-125, 3⟩ = "-0.125" ∧ parse "-0.125" = .ok ⟨-125, 3⟩) ∧
      (parse "-0012.300" = .ok ⟨-123, 1⟩ ∧ render ⟨-123, 1⟩ = "-12.3" ∧
        ∀ negative d, Digits.Canonical negative d → d.value negative = value ⟨-123, 1⟩ →
          Digits.text negative d = "-12.3") ∧
      (render ⟨1, 0⟩ = render ⟨-125, 3⟩ ↔ value ⟨1, 0⟩ = value ⟨-125, 3⟩) := by
  have hone : parse "1.0" = .ok ⟨1, 0⟩ := rfl
  have height : parse "-8" = .ok ⟨-8, 0⟩ := rfl
  have hdiv : div ⟨1, 0⟩ ⟨-8, 0⟩ = .ok ⟨-125, 3⟩ := rfl
  have hrender : render ⟨-125, 3⟩ = "-0.125" := rfl
  have hread : parse "-0012.300" = .ok ⟨-123, 1⟩ := rfl
  have hwritten : render ⟨-123, 1⟩ = "-12.3" := rfl
  have hproduced : Produced ⟨-125, 3⟩ := .div (.parse hone) (.parse height) hdiv
  refine ⟨⟨hdiv, hrender, ?_⟩, ⟨hread, hwritten, ?_⟩, ?_⟩
  · exact hrender ▸ text_round_trips.1 _ hproduced (by decide)
  · exact hwritten ▸ (text_round_trips.2.1 _ _ hread).2.2
  · exact text_round_trips.2.2 _ _ (.parse hone) hproduced

end LineScript.Decimal
