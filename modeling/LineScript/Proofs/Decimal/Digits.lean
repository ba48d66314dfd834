import LineScript.Proofs.Decimal.Canonical
import Mathlib.Data.List.TakeWhile
import Mathlib.Tactic.Linarith
import Mathlib.Tactic.Positivity

/-!
# Digits around a point

`Digits.text` writes a sign and digits around a point, and `Digits.value` is the rational number
they stand for. Reading has the digits back (`parse?_chars`). Written without needless zeros
(`Digits.Canonical`) a number has one text only: the places after the point are settled by the value
alone, then all digits together are the digits of one natural number, and their number is settled by
the rule against leading zeros (`Canonical.unique`).
-/

set_option autoImplicit false

namespace LineScript.Decimal

variable {digits other : List Char} {c : Char} {k : Nat}

/-! ## Runs of digits -/

theorem digitsValue_eq (digits : List Char) : digitsValue digits = Nat.ofDigitChars 10 digits 0 :=
  Nat.ofDigitChars_eq_foldl.symm

theorem digitsValue_cons (c : Char) (digits : List Char) :
    digitsValue (c :: digits) = 10 ^ digits.length * digitValue c + digitsValue digits := by
  rw [digitsValue_eq, digitsValue_eq, Nat.ofDigitChars_cons, Nat.ofDigitChars_eq_ofDigitChars_zero,
    Nat.mul_zero, Nat.zero_add]
  rfl

theorem digitsValue_concat (digits : List Char) (c : Char) :
    digitsValue (digits ++ [c]) = 10 * digitsValue digits + digitValue c := by
  simp [digitsValue, List.foldl_append]

theorem digitsValue_natDigits (k : Nat) : digitsValue (natDigits k) = k := by
  rw [digitsValue_eq]
  exact Nat.ofDigitChars_ten_toDigits

theorem digitsValue_leftpad (k : Nat) (digits : List Char) :
    digitsValue (digits.leftpad k '0') = digitsValue digits := by
  rw [digitsValue_eq, digitsValue_eq, List.leftpad, Nat.ofDigitChars_append,
    Nat.ofDigitChars_replicate_zero, Nat.mul_zero]

theorem isDigit_iff : c.isDigit = true ↔ 48 ≤ c.toNat ∧ c.toNat ≤ 57 := by
  simp only [Char.isDigit, Bool.and_eq_true, decide_eq_true_eq, ge_iff_le, UInt32.le_iff_toNat_le]
  rfl

theorem digitValue_lt (h : c.isDigit = true) : digitValue c < 10 := by
  have hc := isDigit_iff.1 h
  unfold digitValue
  change c.toNat - 48 < 10
  omega

theorem digitValue_inj {d : Char} (hc : c.isDigit = true) (hd : d.isDigit = true)
    (h : digitValue c = digitValue d) : c = d := by
  have hcd := isDigit_iff.1 hc
  have hdd := isDigit_iff.1 hd
  change c.toNat - 48 = d.toNat - 48 at h
  exact Char.toNat_inj.1 (by omega)

theorem digitValue_pos (hc : c.isDigit = true) (hne : c ≠ '0') : 0 < digitValue c := by
  rcases Nat.eq_zero_or_pos (digitValue c) with hzero | hpos
  · have hsame : digitValue c = digitValue '0' := hzero
    exact absurd (digitValue_inj hc (by decide) hsame) hne
  · exact hpos

theorem digitsValue_lt (h : ∀ c ∈ digits, c.isDigit = true) :
    digitsValue digits < 10 ^ digits.length := by
  induction digits with
  | nil => decide
  | cons c digits ih =>
    obtain ⟨hc, hdigits⟩ := List.forall_mem_cons.1 h
    have hlt := digitValue_lt hc
    have hrest := ih hdigits
    rw [digitsValue_cons, List.length_cons, pow_succ]
    nlinarith [Nat.mul_le_mul_left (10 ^ digits.length) (Nat.le_sub_one_of_lt hlt)]

/-- Without a zero in front, a run of digits stands for a number of as many digits. -/
theorem le_digitsValue (hc : c.isDigit = true) (hne : c ≠ '0') (digits : List Char) :
    10 ^ digits.length ≤ digitsValue (c :: digits) := by
  rw [digitsValue_cons]
  exact Nat.le_add_right_of_le (Nat.le_mul_of_pos_right _ (digitValue_pos hc hne))

/-- Runs of the same length stand for the same number only if they are the same. -/
theorem digitsValue_inj (hd : ∀ c ∈ digits, c.isDigit = true) (ho : ∀ c ∈ other, c.isDigit = true)
    (hlength : digits.length = other.length) (h : digitsValue digits = digitsValue other) :
    digits = other := by
  induction digits generalizing other with
  | nil => exact (List.eq_nil_of_length_eq_zero hlength.symm).symm
  | cons c digits ih =>
    cases other with
    | nil => cases hlength
    | cons d other =>
      obtain ⟨hc, hdigits⟩ := List.forall_mem_cons.1 hd
      obtain ⟨hd', hother⟩ := List.forall_mem_cons.1 ho
      have hlen : digits.length = other.length := Nat.succ.inj hlength
      have hlt := digitsValue_lt hdigits
      have hlt' := digitsValue_lt hother
      rw [digitsValue_cons, digitsValue_cons, hlen] at h
      rw [hlen] at hlt
      -- The first digit is the quotient by a power of ten, the rest is the remainder.
      have hfirst : digitValue c = digitValue d := by
        have hpos : 0 < 10 ^ other.length := Nat.pow_pos (by decide)
        have hquot := congrArg (· / 10 ^ other.length) h
        simpa [Nat.mul_add_div hpos, Nat.div_eq_of_lt hlt, Nat.div_eq_of_lt hlt'] using hquot
      rw [hfirst, Nat.add_left_cancel_iff] at h
      rw [digitValue_inj hc hd' hfirst, ih hdigits hother hlen h]

namespace Digits

/-! ## Text -/

/-- Digits around a point; no point where no digits follow. -/
def chars (d : Digits) : List Char :=
  if d.fraction = [] then d.whole else d.whole ++ '.' :: d.fraction

/-- Digits around a point behind a sign. -/
def text (negative : Bool) (d : Digits) : String :=
  String.ofList (if negative then '-' :: d.chars else d.chars)

/-- The number that a sign and digits stand for. -/
def value (negative : Bool) (d : Digits) : ℚ :=
  (if negative then -1 else 1) * digitsValue (d.whole ++ d.fraction) / 10 ^ d.fraction.length

/-- There is a digit in front of the point, and there are no characters but digits. -/
structure WF (d : Digits) : Prop where
  whole_ne : d.whole ≠ []
  whole_isDigit : ∀ c ∈ d.whole, c.isDigit = true
  fraction_isDigit : ∀ c ∈ d.fraction, c.isDigit = true

/-- No zero can be left out, and zero has no sign. -/
structure Canonical (negative : Bool) (d : Digits) : Prop extends WF d where
  no_leading_zero : d.whole ≠ ['0'] → d.whole.head? ≠ some '0'
  no_trailing_zero : d.fraction.getLast? ≠ some '0'
  no_negative_zero : negative = true → ¬ (d.whole = ['0'] ∧ d.fraction = [])

variable {d e : Digits} {negative : Bool}

theorem ne_of_isDigit {mark : Char} (hmark : mark.isDigit = false)
    (h : c.isDigit = true) : c ≠ mark := by
  rintro rfl
  rw [hmark] at h
  cases h

/-- Reading has the digits back. -/
theorem parse?_chars (h : d.WF) : parse? d.chars = some d := by
  have hpoint : ∀ c ∈ d.whole, (c != '.') = true := fun c hc =>
    bne_iff_ne.2 (ne_of_isDigit (by decide) (h.whole_isDigit c hc))
  have hsplit : split? d.chars = some d := by
    obtain ⟨whole, fraction⟩ := d
    unfold split? chars
    cases fraction with
    | nil => simp [List.takeWhile_eq_self_iff.2 hpoint, List.dropWhile_eq_nil_iff.2 hpoint]
    | cons c rest =>
      rw [if_neg (List.cons_ne_nil _ _), List.takeWhile_append_of_pos hpoint,
        List.dropWhile_append_of_pos hpoint]
      simp
  have hall : d.whole ≠ [] ∧ d.whole.all Char.isDigit ∧ d.fraction.all Char.isDigit :=
    ⟨h.whole_ne, List.all_eq_true.2 h.whole_isDigit, List.all_eq_true.2 h.fraction_isDigit⟩
  rw [parse?, hsplit]
  exact if_pos hall

/-- The first character is a digit. -/
theorem chars_cons (h : d.WF) : ∃ c rest, d.chars = c :: rest ∧ c.isDigit = true := by
  obtain ⟨c, rest, hwhole⟩ := List.exists_cons_of_ne_nil h.whole_ne
  have hc : c.isDigit = true := h.whole_isDigit c (hwhole ▸ List.mem_cons_self)
  unfold chars
  split
  · exact ⟨c, rest, hwhole, hc⟩
  · exact ⟨c, rest ++ '.' :: d.fraction, by rw [hwhole]; rfl, hc⟩

/-- A text has one sign and one list of digits. -/
theorem text_inj {other : Bool} (hd : d.WF) (he : e.WF) (h : text negative d = text other e) :
    negative = other ∧ d = e := by
  have hinj : d.chars = e.chars → d = e := fun hchars =>
    Option.some.inj ((parse?_chars hd).symm.trans (hchars ▸ parse?_chars he))
  obtain ⟨c, rest, hcd, hc⟩ := chars_cons hd
  obtain ⟨c', rest', hce, hc'⟩ := chars_cons he
  have hminus : ∀ {c : Char}, c.isDigit = true → c ≠ '-' := ne_of_isDigit (by decide)
  have hlist := String.ofList_injective h
  cases negative <;> cases other
  · exact ⟨rfl, hinj hlist⟩
  · simp [hcd, hminus hc] at hlist
  · simp [hce, (hminus hc').symm] at hlist
  · exact ⟨rfl, hinj (List.cons.inj hlist).2⟩

/-- What is written is read. -/
theorem parse_text (h : d.WF) : parse (text negative d) = d.toDecimal negative := by
  have hread : parse? d.chars = some d := parse?_chars h
  cases negative with
  | true => simp [parse, text, hread]
  | false =>
    obtain ⟨c, rest, hchars, hc⟩ := chars_cons h
    have hminus : c ≠ '-' := ne_of_isDigit (by decide) hc
    rw [hchars] at hread
    simp [parse, text, hchars, hread, hminus]

/-! ## One text for each value -/

/-- The record with the same coefficient and the same places. It may be out of range. -/
def record (negative : Bool) (d : Digits) : Decimal :=
  ⟨(if negative then -1 else 1) * digitsValue (d.whole ++ d.fraction), d.fraction.length⟩

theorem value_record (negative : Bool) (d : Digits) :
    (record negative d).value = d.value negative := by
  cases negative <;> simp [record, Decimal.value, value]

theorem WF.isDigit (h : d.WF) : ∀ c ∈ d.whole ++ d.fraction, c.isDigit = true := by
  intro c hc
  rcases List.mem_append.1 hc with hc | hc
  · exact h.whole_isDigit c hc
  · exact h.fraction_isDigit c hc

/-- Without a zero at the end of the fraction the last digit of the coefficient is not zero. -/
theorem record_last_ne (hdigits : ∀ c ∈ d.fraction, c.isDigit = true)
    (hlast : d.fraction.getLast? ≠ some '0') (hscale : 0 < (record negative d).scale) :
    (record negative d).coefficient % 10 ≠ 0 := by
  obtain ⟨front, c, hfraction⟩ : ∃ front c, d.fraction = front ++ [c] := by
    have hne : d.fraction ≠ [] := List.length_pos_iff.1 hscale
    exact ⟨_, _, (List.dropLast_concat_getLast hne).symm⟩
  have hc : c.isDigit = true := hdigits c (by simp [hfraction])
  have hne : c ≠ '0' := fun heq => hlast (by simp [hfraction, heq])
  have hlt := digitValue_lt hc
  have hpos := digitValue_pos hc hne
  have hvalue : digitsValue (d.whole ++ d.fraction) =
      10 * digitsValue (d.whole ++ front) + digitValue c := by
    rw [hfraction, ← List.append_assoc, digitsValue_concat]
  simp only [record, hvalue]
  split <;> omega

theorem Canonical.last_ne (h : d.Canonical negative) (hscale : 0 < (record negative d).scale) :
    (record negative d).coefficient % 10 ≠ 0 :=
  record_last_ne h.fraction_isDigit h.no_trailing_zero hscale

/-- A number with a sign is not zero. -/
theorem Canonical.digitsValue_pos (h : d.Canonical true) :
    0 < digitsValue (d.whole ++ d.fraction) := by
  by_cases hfraction : d.fraction = []
  · -- A whole number other than zero has a first digit other than zero.
    have hwhole : d.whole ≠ ['0'] := fun heq => h.no_negative_zero rfl ⟨heq, hfraction⟩
    obtain ⟨c, rest, hcons⟩ := List.exists_cons_of_ne_nil h.whole_ne
    have hne : c ≠ '0' := fun heq => h.no_leading_zero hwhole (by simp [hcons, heq])
    have hle := le_digitsValue (h.whole_isDigit c (hcons ▸ List.mem_cons_self)) hne rest
    rw [hfraction, List.append_nil, hcons]
    exact Nat.lt_of_lt_of_le (Nat.pow_pos (by decide)) hle
  · have hlast := h.last_ne (List.length_pos_iff.2 hfraction)
    rcases Nat.eq_zero_or_pos (digitsValue (d.whole ++ d.fraction)) with hzero | hpos
    · simp [record, hzero] at hlast
    · exact hpos

/-- Without zeros in front, no digits with the same value are fewer. -/
theorem Canonical.length_whole_le (hd : d.Canonical negative) (he : e.WF)
    (hfraction : d.fraction.length = e.fraction.length)
    (hvalue : digitsValue (d.whole ++ d.fraction) = digitsValue (e.whole ++ e.fraction)) :
    d.whole.length ≤ e.whole.length := by
  obtain ⟨c, rest, hcons⟩ := List.exists_cons_of_ne_nil hd.whole_ne
  have he_pos : 0 < e.whole.length := List.length_pos_iff.2 he.whole_ne
  by_cases hrest : rest = []
  · rw [hcons, hrest]
    exact he_pos
  · have hwhole : d.whole ≠ ['0'] := fun heq => hrest (List.cons.inj (hcons.symm.trans heq)).2
    have hne : c ≠ '0' := fun heq => hd.no_leading_zero hwhole (by simp [hcons, heq])
    have hle :=
      le_digitsValue (hd.whole_isDigit c (hcons ▸ List.mem_cons_self)) hne (rest ++ d.fraction)
    have hlt := digitsValue_lt he.isDigit
    rw [← hvalue, hcons] at hlt
    have hpow := (Nat.pow_lt_pow_iff_right (by decide : 1 < 10)).1 (Nat.lt_of_le_of_lt hle hlt)
    rw [List.length_append, List.length_append, hfraction] at hpow
    rw [hcons, List.length_cons]
    omega

/-- **One text.** Digits without needless zeros that stand for the same number are the same. -/
theorem Canonical.unique {other : Bool} (hd : d.Canonical negative) (he : e.Canonical other)
    (h : d.value negative = e.value other) : negative = other ∧ d = e := by
  have hrecord : record negative d = record other e := by
    rw [← value_record, ← value_record] at h
    exact eq_of_value_eq hd.last_ne he.last_ne h
  have hfraction : d.fraction.length = e.fraction.length := congrArg Decimal.scale hrecord
  have hsigned := congrArg Decimal.coefficient hrecord
  have hboth : negative = other ∧
      digitsValue (d.whole ++ d.fraction) = digitsValue (e.whole ++ e.fraction) := by
    cases negative <;> cases other
    · exact ⟨rfl, by simpa [record] using hsigned⟩
    · have hpos := he.digitsValue_pos
      simp only [record, Bool.false_eq_true, if_false, if_true] at hsigned
      omega
    · have hpos := hd.digitsValue_pos
      simp only [record, Bool.false_eq_true, if_false, if_true] at hsigned
      omega
    · exact ⟨rfl, by simpa [record] using hsigned⟩
  obtain ⟨hnegative, hvalue⟩ := hboth
  have hwhole : d.whole.length = e.whole.length :=
    Nat.le_antisymm (hd.length_whole_le he.toWF hfraction hvalue)
      (he.length_whole_le hd.toWF hfraction.symm hvalue.symm)
  have hall : d.whole ++ d.fraction = e.whole ++ e.fraction :=
    digitsValue_inj hd.isDigit he.isDigit (by simp [hwhole, hfraction]) hvalue
  obtain ⟨hw, hf⟩ := List.append_inj hall hwhole
  obtain ⟨_, _⟩ := d
  obtain ⟨_, _⟩ := e
  exact ⟨hnegative, by simp_all⟩

end Digits

end LineScript.Decimal
