import LineScript.Text.Utf8

/-!
# Reading UTF-8 that was written

The reader has every character back from its bytes. There are four lengths; in each the first byte
announces a range for the second one, and the code points that are written with so many bytes keep
to it: there are no overlong forms, since the shorter length is taken first, and no surrogates,
since those are no characters.
-/

set_option autoImplicit false

namespace LineScript.Utf8

variable {rest : List UInt8} {p : Pending} {n : Nat}

/-- The code point of a character is no surrogate and not too large. -/
theorem toNat_cases (c : Char) : c.toNat < 0xD800 ∨ 0xDFFF < c.toNat ∧ c.toNat < 0x110000 := c.valid

theorem toNat_toUInt8 (h : n < 256) : n.toUInt8.toNat = n := by
  simp [Nat.mod_eq_of_lt h]

/-! ## One byte -/

theorem decodeFrom_char {c : Char} (hn : n < 256) (h : lead n = .char c) :
    decodeFrom none (n.toUInt8 :: rest) = c :: decodeFrom none rest := by
  rw [decodeFrom, toNat_toUInt8 hn, step, first, h]
  rfl

theorem decodeFrom_sequence (hn : n < 256) (h : lead n = .sequence p) :
    decodeFrom none (n.toUInt8 :: rest) = decodeFrom (some p) rest := by
  rw [decodeFrom, toNat_toUInt8 hn, step, first, h]
  rfl

/-- A byte inside of a sequence adds six bits. -/
theorem decodeFrom_inside {left : Nat} (hn : n < 256) (hrange : p.low ≤ n ∧ n ≤ p.high)
    (hafter : p.after = left + 1) :
    decodeFrom (some p) (n.toUInt8 :: rest) =
      decodeFrom (some ⟨p.bits * 64 + n % 64, left, 0x80, 0xBF⟩) rest := by
  rw [decodeFrom, toNat_toUInt8 hn]
  simp only [step, if_pos hrange, hafter]
  rfl

/-- The last byte of a sequence completes the character. -/
theorem decodeFrom_last (hn : n < 256) (hrange : p.low ≤ n ∧ n ≤ p.high) (hafter : p.after = 0) :
    decodeFrom (some p) (n.toUInt8 :: rest) =
      Char.ofNat (p.bits * 64 + n % 64) :: decodeFrom none rest := by
  rw [decodeFrom, toNat_toUInt8 hn]
  simp only [step, if_pos hrange, hafter]
  rfl

/-! ## One character -/

/-- The first of three bytes holds the highest bits and announces a range that the second one is
in. -/
theorem lead_three {k : Nat} (hlow : 0x800 ≤ k) (hhigh : k < 0x10000)
    (hvalid : k < 0xD800 ∨ 0xDFFF < k) :
    ∃ p, lead (0xE0 + k / 4096) = .sequence p ∧ p.bits = k / 4096 ∧ p.after = 1 ∧
      p.low ≤ 0x80 + k / 64 % 64 ∧ 0x80 + k / 64 % 64 ≤ p.high := by
  unfold lead
  rw [if_neg (by omega), if_neg (by omega), if_neg (by omega)]
  by_cases hzero : k / 4096 = 0
  · exact ⟨_, if_pos (by omega), hzero.symm, rfl, by dsimp only; omega, by dsimp only; omega⟩
  · rw [if_neg (by omega)]
    by_cases hsurrogates : k / 4096 = 0xD
    · exact ⟨_, if_pos (by omega), hsurrogates.symm,
        rfl, by dsimp only; omega, by dsimp only; omega⟩
    · rw [if_neg (by omega)]
      refine ⟨_, if_pos (by omega), Nat.add_sub_cancel_left _ _, rfl, ?_, ?_⟩
      · exact Nat.le_add_right _ _
      · dsimp only
        omega

/-- The first of four bytes, likewise. -/
theorem lead_four {k : Nat} (hlow : 0x10000 ≤ k) (hhigh : k < 0x110000) :
    ∃ p, lead (0xF0 + k / 262144) = .sequence p ∧ p.bits = k / 262144 ∧ p.after = 2 ∧
      p.low ≤ 0x80 + k / 4096 % 64 ∧ 0x80 + k / 4096 % 64 ≤ p.high := by
  unfold lead
  rw [if_neg (by omega), if_neg (by omega), if_neg (by omega), if_neg (by omega), if_neg (by omega),
    if_neg (by omega)]
  by_cases hzero : k / 262144 = 0
  · exact ⟨_, if_pos (by omega), hzero.symm, rfl, by dsimp only; omega, by dsimp only; omega⟩
  · rw [if_neg (by omega)]
    by_cases hfour : k / 262144 = 4
    · rw [if_neg (by omega)]
      exact ⟨_, if_pos (by omega), hfour.symm, rfl, by dsimp only; omega, by dsimp only; omega⟩
    · refine ⟨_, if_pos (by omega), Nat.add_sub_cancel_left _ _, rfl, ?_, ?_⟩
      · exact Nat.le_add_right _ _
      · dsimp only
        omega

/-- Reading has a character back. -/
theorem decodeFrom_encodeChar (c : Char) :
    decodeFrom none (encodeChar c ++ rest) = c :: decodeFrom none rest := by
  have hvalid := toNat_cases c
  have hofNat : Char.ofNat c.toNat = c := Char.ofNat_toNat c
  unfold encodeChar
  dsimp only
  generalize c.toNat = k at hvalid hofNat
  split
  · rename_i hone
    exact decodeFrom_char (by omega) (by rw [lead, if_pos hone, hofNat])
  · split
    · rename_i hone htwo
      have hlead : lead (0xC0 + k / 64) = .sequence ⟨k / 64, 0, 0x80, 0xBF⟩ := by
        rw [lead, if_neg (by omega), if_neg (by omega), if_pos (by omega), Nat.add_sub_cancel_left]
      rw [List.cons_append, List.cons_append, List.nil_append, decodeFrom_sequence (by omega) hlead,
        decodeFrom_last (by omega) (by dsimp only; omega) rfl]
      rw [show k / 64 * 64 + (0x80 + k % 64) % 64 = k by omega, hofNat]
    · split
      · rename_i hone htwo hthree
        obtain ⟨p, hlead, hbits, hafter, hrange⟩ := lead_three (by omega) hthree (by omega)
        rw [List.cons_append, List.cons_append, List.cons_append, List.nil_append,
          decodeFrom_sequence (by omega) hlead, decodeFrom_inside (by omega) hrange hafter,
          decodeFrom_last (by omega) (by dsimp only; omega) rfl]
        dsimp only
        rw [hbits, show (k / 4096 * 64 + (0x80 + k / 64 % 64) % 64) * 64 + (0x80 + k % 64) % 64 =
          k by omega, hofNat]
      · rename_i hone htwo hthree
        obtain ⟨p, hlead, hbits, hafter, hrange⟩ := lead_four (by omega) (by omega : k < 0x110000)
        rw [List.cons_append, List.cons_append, List.cons_append, List.cons_append, List.nil_append,
          decodeFrom_sequence (by omega) hlead, decodeFrom_inside (by omega) hrange hafter,
          decodeFrom_inside (by omega) (by dsimp only; omega) rfl,
          decodeFrom_last (by omega) (by dsimp only; omega) rfl]
        dsimp only
        rw [hbits, show ((k / 262144 * 64 + (0x80 + k / 4096 % 64) % 64) * 64 +
          (0x80 + k / 64 % 64) % 64) * 64 + (0x80 + k % 64) % 64 = k by omega, hofNat]

/-- **Reading undoes writing.** -/
theorem decodeLossy_encode (text : String) : decodeLossy (encode text) = text := by
  have hchars : ∀ cs : List Char, decodeFrom none (encodeChars cs) = cs := by
    intro cs
    induction cs with
    | nil => rfl
    | cons c cs ih =>
      rw [encodeChars, List.flatMap_cons, decodeFrom_encodeChar]
      exact congrArg (c :: ·) ih
  rw [decodeLossy, encode, hchars, String.ofList_toList]

end LineScript.Utf8
