import LineScript.Proofs.LineComposition
import LineScript.Proofs.LiteralFaults
import LineScript.Proofs.LosslessScan

/-!
# What text is a number

Text is read as a number exactly if it has the form of one, an optional sign in front of digits
around an optional point (`signedText`), and the value that it stands for can be held: a whole
number of at most 38 places whose digits are in range (`Representable`). How often a zero stands in
front of the digits or at the end of the fraction plays no part, since no record for the value has
fewer places than the one without such zeros, and none a smaller coefficient (`Digits.fits_iff`).

A number literal of a source has no sign, and is faulty exactly if its value cannot be held
(`text_read_by_value`).
-/

set_option autoImplicit false

open Computability

namespace LineScript

namespace Decimal

/-! ## Form -/

/-- A number with or without a sign. -/
def signedText : Language Char := (1 + {['-']}) * Pattern.numberText

theorem mem_numberText_iff {chars : List Char} :
    chars ∈ Pattern.numberText ↔ ∃ d : Digits, d.WF ∧ chars = d.chars := by
  rw [Pattern.mem_numberText]
  constructor
  · rintro ⟨whole, hwhole, htext⟩
    obtain ⟨hne, hdigits⟩ := Pattern.mem_digits.1 hwhole
    rcases htext with rfl | ⟨fraction, hfraction, rfl⟩
    · exact ⟨⟨chars, []⟩, ⟨hne, hdigits, List.forall_mem_nil _⟩, rfl⟩
    · obtain ⟨hfne, hfdigits⟩ := Pattern.mem_digits.1 hfraction
      exact ⟨⟨whole, fraction⟩, ⟨hne, hdigits, hfdigits⟩, (if_neg hfne).symm⟩
  · rintro ⟨d, hd, rfl⟩
    refine ⟨d.whole, Pattern.mem_digits.2 ⟨hd.whole_ne, hd.whole_isDigit⟩, ?_⟩
    unfold Digits.chars
    split
    · exact Or.inl rfl
    · rename_i hne
      exact Or.inr ⟨d.fraction, Pattern.mem_digits.2 ⟨hne, hd.fraction_isDigit⟩, rfl⟩

theorem mem_signedText_iff {text : String} :
    text.toList ∈ signedText ↔ ∃ negative d, Digits.WF d ∧ text = Digits.text negative d := by
  have htext : ∀ chars, text.toList = chars ↔ text = String.ofList chars := fun chars => by
    rw [← String.toList_inj, String.toList_ofList]
  rw [signedText, Language.mem_mul]
  constructor
  · rintro ⟨sign, hsign, chars, hchars, heq⟩
    obtain ⟨d, hd, rfl⟩ := mem_numberText_iff.1 hchars
    rcases hsign with hnone | hminus
    · obtain rfl := (Language.mem_one _).1 hnone
      exact ⟨false, d, hd, (htext _).1 heq.symm⟩
    · obtain rfl : sign = ['-'] := hminus
      exact ⟨true, d, hd, (htext _).1 heq.symm⟩
  · rintro ⟨negative, d, hd, heq⟩
    have hchars := mem_numberText_iff.2 ⟨d, hd, rfl⟩
    cases negative with
    | false => exact ⟨[], Or.inl rfl, d.chars, hchars, ((htext _).2 heq).symm⟩
    | true => exact ⟨['-'], Or.inr rfl, d.chars, hchars, ((htext _).2 heq).symm⟩

/-! ## Value -/

/-- The text has the form of a number and stands for the value. -/
def StandsFor (text : String) (x : ℚ) : Prop :=
  ∃ negative d, Digits.WF d ∧ text = Digits.text negative d ∧ x = d.value negative

/-- Text of the form of a number stands for one value. -/
theorem existsUnique_standsFor {text : String} (h : text.toList ∈ signedText) :
    ∃! x, StandsFor text x := by
  obtain ⟨negative, d, hd, rfl⟩ := mem_signedText_iff.1 h
  refine ⟨d.value negative, ⟨negative, d, hd, rfl, rfl⟩, ?_⟩
  rintro y ⟨other, e, he, heq, rfl⟩
  obtain ⟨rfl, rfl⟩ := Digits.text_inj hd he heq
  rfl

/-- A whole number whose digits are in range on either side of zero, with the point up to 38 places
in front of its end. -/
def Representable (x : ℚ) : Prop :=
  ∃ (c : ℤ) (k : ℕ), k ≤ 38 ∧ |c| ≤ maxCoefficient ∧ x = c / 10 ^ k

namespace Digits

variable {d : Digits} {negative : Bool}

/-- No zero is left at the end of a fraction. -/
theorem trim_no_trailing_zero (d : Digits) : d.trim.fraction.getLast? ≠ some '0' := by
  have hhead := List.head?_dropWhile_not (· == '0') d.fraction.reverse
  rw [trim, List.getLast?_reverse]
  intro hzero
  rw [hzero] at hhead
  simp at hhead

theorem trim_fraction_isDigit (h : d.WF) : ∀ c ∈ d.trim.fraction, c.isDigit = true := by
  obtain ⟨k, hfraction⟩ := d.fraction_eq
  intro c hc
  exact h.fraction_isDigit c (hfraction ▸ List.mem_append_left _ hc)

theorem natAbs_record (negative : Bool) (d : Digits) :
    (record negative d).coefficient.natAbs = digitsValue (d.whole ++ d.fraction) := by
  cases negative <;> simp [record]

/-- A record with more places for the same value has no smaller coefficient. -/
theorem natAbs_le_of_value_eq {a b : Decimal} (hscale : b.scale ≤ a.scale) (h : a.value = b.value) :
    b.coefficient.natAbs ≤ a.coefficient.natAbs := by
  rw [coefficient_eq_of_value_eq (Nat.add_sub_cancel' hscale).symm h, Int.natAbs_mul]
  exact Nat.le_mul_of_pos_right _ (Int.natAbs_pos.2 (pow_ne_zero _ (by decide)))

/-- What is checked before a number is made, in terms of the value. -/
theorem fits_iff (h : d.WF) :
    (d.trim.fraction.length ≤ maxScale ∧
      (digitsValue (d.trim.whole ++ d.trim.fraction) : ℤ) ≤ maxCoefficient) ↔
      Representable (d.value negative) := by
  rw [← value_trim, ← value_record, ← natAbs_record negative]
  constructor
  · rintro ⟨hplaces, hrange⟩
    exact ⟨(record negative d.trim).coefficient, d.trim.fraction.length,
      hplaces, by rwa [Int.abs_eq_natAbs], rfl⟩
  · rintro ⟨c, k, hk, hc, heq⟩
    -- Without a zero at its end the fraction has the fewest places, and so the digits are the
    -- smallest.
    have hvalue : Decimal.value ⟨c, k⟩ = (record negative d.trim).value := heq.symm
    have hscale : (record negative d.trim).scale ≤ k :=
      scale_le_of_value_eq (record_last_ne (trim_fraction_isDigit h) d.trim_no_trailing_zero) hvalue
    have hle := natAbs_le_of_value_eq hscale hvalue
    rw [Int.abs_eq_natAbs] at hc
    exact ⟨hscale.trans hk, (Int.ofNat_le.2 hle).trans hc⟩

theorem toDecimal_of_representable (h : d.WF) (hx : Representable (d.value negative)) :
    ∃ n, d.toDecimal negative = .ok n ∧ n.value = d.value negative := by
  have hread : ∃ n, d.toDecimal negative = .ok n := ⟨_, if_pos ((fits_iff h).2 hx)⟩
  obtain ⟨n, hn⟩ := hread
  exact ⟨n, hn, value_of_toDecimal hn⟩

theorem toDecimal_of_not_representable (h : d.WF) (hx : ¬ Representable (d.value negative)) :
    d.toDecimal negative = .error .outOfRange :=
  if_neg (mt (fits_iff h).1 hx)

end Digits

/-! ## Reading -/

variable {text other : String} {x : ℚ}

theorem parse_of_representable (h : StandsFor text x) (hx : Representable x) :
    ∃ n, parse text = .ok n ∧ n.value = x := by
  obtain ⟨negative, d, hd, rfl, rfl⟩ := h
  rw [Digits.parse_text hd]
  exact Digits.toDecimal_of_representable hd hx

theorem parse_of_not_representable (h : StandsFor text x) (hx : ¬ Representable x) :
    parse text = .error .outOfRange := by
  obtain ⟨negative, d, hd, rfl, rfl⟩ := h
  rw [Digits.parse_text hd]
  exact Digits.toDecimal_of_not_representable hd hx

theorem parse_eq_outOfRange_iff (h : StandsFor text x) :
    parse text = .error .outOfRange ↔ ¬ Representable x := by
  refine ⟨fun herror hx => ?_, parse_of_not_representable h⟩
  obtain ⟨n, hn, _⟩ := parse_of_representable h hx
  rw [hn] at herror
  cases herror

/-- Text that stands for the same value is read as the same number, or neither is. -/
theorem parse_congr (h : StandsFor text x) (hother : StandsFor other x) :
    parse other = parse text := by
  by_cases hx : Representable x
  · obtain ⟨n, hn, hvalue⟩ := parse_of_representable h hx
    obtain ⟨m, hm, hsame⟩ := parse_of_representable hother hx
    rw [hn, hm, eq_of_value_eq (canonical_of_parse hm).last_ne (canonical_of_parse hn).last_ne
      (hsame.trans hvalue.symm)]
  · rw [parse_of_not_representable h hx, parse_of_not_representable hother hx]

theorem parse_eq_malformed_iff :
    parse text = .error (.malformed text) ↔ text.toList ∉ signedText := by
  constructor
  · intro herror hform
    obtain ⟨x, hx, _⟩ := existsUnique_standsFor hform
    by_cases hrepresentable : Representable x
    · obtain ⟨n, hn, _⟩ := parse_of_representable hx hrepresentable
      rw [hn] at herror
      cases herror
    · rw [parse_of_not_representable hx hrepresentable] at herror
      cases herror
  · intro hform
    rcases parse_cases text with ⟨negative, d, hd, htext, _⟩ | herror
    · exact absurd (mem_signedText_iff.2 ⟨negative, d, hd, htext⟩) hform
    · exact herror

end Decimal

/-! ## Number literals -/

open Decimal

/-- A number literal of a source has the form of a number. -/
theorem Token.exists_standsFor {source : String} {tokens : List Token}
    (hscan : scan source = .ok tokens) {t : Token} (ht : t ∈ tokens)
    (hkind : t.kind = .numberLiteral) : ∃ x, StandsFor t.value x := by
  obtain ⟨_, ⟨body, rfl, hplaced⟩, _⟩ := account_of_scan hscan
  rcases List.mem_append.1 ht with hbody | hend
  · obtain ⟨front, taken, behind, _, _, _, hchosen, hvalue⟩ := hplaced t hbody
    have htaken := hchosen.mem
    rw [hkind] at htaken hvalue
    obtain ⟨d, hd, rfl⟩ := mem_numberText_iff.1 htaken
    exact ⟨d.value false, false, d, hd, hvalue, rfl⟩
  · obtain rfl := List.mem_singleton.1 hend
    cases hkind

/-- A number literal denotes its value, or it is faulty and denotes zero. -/
theorem Token.denoted?_number {t : Token} (hkind : t.kind = .numberLiteral) {x : ℚ}
    (h : StandsFor t.value x) :
    (Representable x → ∃ n, t.denoted? = some ⟨.number n, []⟩ ∧ n.value = x) ∧
      (¬ Representable x → t.denoted? = some ⟨.number .zero, [⟨t, .numberRange⟩]⟩) := by
  simp only [denoted?, hkind]
  constructor
  · intro hx
    obtain ⟨n, hn, hvalue⟩ := parse_of_representable h hx
    exact ⟨n, by rw [hn], hvalue⟩
  · intro hx
    rw [parse_of_not_representable h hx]

theorem Token.numberRange_mem_faults_iff {t : Token} (hkind : t.kind = .numberLiteral) {x : ℚ}
    (h : StandsFor t.value x) : ⟨t, .numberRange⟩ ∈ t.faults ↔ ¬ Representable x := by
  obtain ⟨hfits, hfaulty⟩ := denoted?_number hkind h
  rw [faults]
  by_cases hx : Representable x
  · obtain ⟨n, hn, _⟩ := hfits hx
    simp [hn, hx]
  · simp [hfaulty hx, hx]

/-- What a program notes of a literal of its source is what is wrong with it. -/
theorem Program.mem_errors_iff {source : String} {tokens : List Token}
    (hscan : Token.scan source = .ok tokens) {p : Program}
    (hread : (Program.ofTokens tokens).outcome = .ok p) {t : Token} (ht : t ∈ tokens)
    {e : LiteralError} (he : e.token = t) :
    e ∈ (Program.ofTokens tokens).errors ↔ e ∈ t.faults := by
  obtain ⟨body, closing, rfl, hclosing, hbody⟩ := Token.scan_tokens hscan
  rw [Program.errors_of_ofTokens_closed hclosing hbody hread, List.mem_flatMap]
  constructor
  · rintro ⟨u, _, hu⟩
    rwa [← he, Token.token_of_mem_faults hu]
  · intro hfault
    rcases List.mem_append.1 ht with hmem | hmem
    · exact ⟨t, hmem, hfault⟩
    · obtain rfl := List.mem_singleton.1 hmem
      have hnone : Token.faults t = [] := Token.faults_of_not_literal (by rw [hclosing]; decide)
      rw [hnone] at hfault
      cases hfault

/-- **Text is read by its value.** It is malformed exactly if it has not the form of a number. If it
has, it stands for one value and is read as a number with exactly this value whenever that can be
held, and is out of range exactly if it cannot; so all texts for a value are read alike, whatever
zeros they have. A number literal of a source has the form of a number; it denotes its value if that
can be held, and is noted as faulty exactly if it cannot. -/
theorem Decimal.text_read_by_value :
    (∀ text, (parse text = .error (.malformed text) ↔ text.toList ∉ signedText) ∧
      ∀ reported, parse text = .error (.malformed reported) → reported = text) ∧
      (∀ text, text.toList ∈ signedText → ∃! x, StandsFor text x) ∧
      (∀ text x, StandsFor text x →
        (Representable x → ∃ n, parse text = .ok n ∧ n.value = x) ∧
        (parse text = .error .outOfRange ↔ ¬ Representable x) ∧
        ∀ other, StandsFor other x → parse other = parse text) ∧
      ∀ source tokens, Token.scan source = .ok tokens →
        ∀ t ∈ tokens, t.kind = .numberLiteral →
          ∃ x, StandsFor t.value x ∧
            (Representable x → ∃ n, t.denoted? = some ⟨.number n, []⟩ ∧ n.value = x) ∧
            (⟨t, .numberRange⟩ ∈ t.faults ↔ ¬ Representable x) ∧
            ∀ p, (Program.ofTokens tokens).outcome = .ok p →
              (⟨t, .numberRange⟩ ∈ (Program.ofTokens tokens).errors ↔ ¬ Representable x) := by
  refine ⟨fun text => ⟨parse_eq_malformed_iff, fun reported h => ?_⟩,
    fun text => existsUnique_standsFor, fun text x h =>
      ⟨parse_of_representable h, parse_eq_outOfRange_iff h, fun other => parse_congr h⟩,
    fun source tokens hscan t ht hkind => ?_⟩
  · rcases parse_cases text with ⟨negative, d, hd, rfl, hread⟩ | herror
    · rw [hread] at h
      unfold Digits.toDecimal at h
      dsimp only at h
      split at h <;> cases h
    · rw [herror] at h
      exact (DecimalError.malformed.inj (Except.error.inj h)).symm
  · obtain ⟨x, hx⟩ := Token.exists_standsFor hscan ht hkind
    have hfault := Token.numberRange_mem_faults_iff hkind hx
    exact ⟨x, hx, (Token.denoted?_number hkind hx).1, hfault,
      fun p hread => (Program.mem_errors_iff hscan hread ht rfl).trans hfault⟩

set_option maxRecDepth 8192 in
/-- The zeros around `7.5` say nothing. The whole number behind the largest coefficient is out of
range, so it cannot be held, and a source with the largest one is free of faults. -/
theorem Decimal.text_read_by_value_zeros :
    parse "1." = .error (.malformed "1.") ∧ "1.".toList ∉ signedText ∧
    (∃ n, parse "-007.500" = .ok n ∧ n.value = -15 / 2) ∧ parse "-7.5" = parse "-007.500" ∧
    (∃ x, StandsFor "170141183460469231731687303715884105728" x ∧ ¬ Representable x) ∧
    ∃ t x, Token.scan "170141183460469231731687303715884105727" = .ok [t, Token.endOfFile 39] ∧
      StandsFor t.value x ∧ Representable x := by
  have hmalformed : parse "1." = .error (.malformed "1.") := rfl
  have hlong : StandsFor "-007.500" (-15 / 2) := by
    refine ⟨true, ⟨['0', '0', '7'], ['5', '0', '0']⟩,
      ⟨by decide, List.all_eq_true.1 rfl, List.all_eq_true.1 rfl⟩, rfl, ?_⟩
    have hdigits : digitsValue ['0', '0', '7', '5', '0', '0'] = 7500 := by decide
    norm_num [Digits.value, hdigits]
  have hshort : StandsFor "-7.5" (-15 / 2) := by
    refine ⟨true, ⟨['7'], ['5']⟩,
      ⟨by decide, List.all_eq_true.1 rfl, List.all_eq_true.1 rfl⟩, rfl, ?_⟩
    have hdigits : digitsValue ['7', '5'] = 75 := by decide
    norm_num [Digits.value, hdigits]
  have hfits : Representable (-15 / 2) := ⟨-75, 1, by decide, by decide, by norm_num⟩
  have hread := text_read_by_value.2.2.1 "-007.500" _ hlong
  refine ⟨hmalformed, ((text_read_by_value.1 "1.").1).1 hmalformed, hread.1 hfits,
    hread.2.2 _ hshort, ?_, ?_⟩
  · have hform : "170141183460469231731687303715884105728".toList ∈ signedText :=
      mem_signedText_iff.2 ⟨false, ⟨_, []⟩,
        ⟨by decide, List.all_eq_true.1 rfl, List.all_eq_true.1 rfl⟩, rfl⟩
    obtain ⟨x, hx, _⟩ := text_read_by_value.2.1 _ hform
    exact ⟨x, hx, (text_read_by_value.2.2.1 _ x hx).2.1.1 rfl⟩
  · let t : Token := ⟨.numberLiteral, "170141183460469231731687303715884105727", false, ⟨0, 39⟩⟩
    have hscan : Token.scan "170141183460469231731687303715884105727" =
        .ok [t, Token.endOfFile 39] := by
      with_unfolding_all rfl
    obtain ⟨x, hx, _, hfault, _⟩ := text_read_by_value.2.2.2 _ _ hscan t List.mem_cons_self rfl
    have hparse : parse "170141183460469231731687303715884105727" =
        .ok ⟨170141183460469231731687303715884105727, 0⟩ := rfl
    have hnone : t.faults = [] := by simp only [t, Token.faults, Token.denoted?, hparse]
    refine ⟨t, x, hscan, hx, not_not.1 (mt hfault.2 ?_)⟩
    rw [hnone]
    exact List.not_mem_nil

end LineScript
