import LineScript.Proofs.Text.Utf8
import Mathlib.Data.String.Basic

/-!
# The order of bytes is the order of characters

Texts are ordered by their code points, and their bytes are in the same order (`encode_lt_iff`). A
character of more bytes has a larger first byte. Of characters with as many bytes the first byte
holds the highest bits, and each byte behind it the next lower ones.
-/

set_option autoImplicit false

namespace LineScript.Utf8

variable {m n : Nat} {front back : List UInt8}

/-- The first byte decides, or those behind it do. -/
theorem cons_lt_cons (hn : n < 256) (hle : m ≤ n) (hrest : m = n → front < back) :
    m.toUInt8 :: front < n.toUInt8 :: back := by
  rw [List.cons_lt_cons_iff, UInt8.lt_iff_toNat_lt, toNat_toUInt8 (by omega), toNat_toUInt8 hn]
  rcases Nat.lt_or_eq_of_le hle with hlt | heq
  · exact Or.inl hlt
  · exact Or.inr ⟨congrArg Nat.toUInt8 heq, hrest heq⟩

/-- The bytes of a smaller character come first, whatever stands behind them. -/
theorem encodeChar_append_lt {c d : Char} (h : c < d) (front back : List UInt8) :
    encodeChar c ++ front < encodeChar d ++ back := by
  have hlt : c.toNat < d.toNat := h
  have hvalid := toNat_cases d
  unfold encodeChar
  dsimp only
  generalize c.toNat = m at hlt
  generalize d.toNat = n at hlt hvalid
  split
  · split_ifs <;> exact cons_lt_cons (by omega) (by omega) fun heq => absurd hlt (by omega)
  · rw [if_neg (show ¬ n < 0x80 by omega)]
    split
    · split_ifs
      · exact cons_lt_cons (by omega) (by omega) fun _ =>
          cons_lt_cons (by omega) (by omega) fun _ => absurd hlt (by omega)
      · exact cons_lt_cons (by omega) (by omega) fun heq => absurd heq (by omega)
      · exact cons_lt_cons (by omega) (by omega) fun heq => absurd heq (by omega)
    · rw [if_neg (show ¬ n < 0x800 by omega)]
      split
      · split_ifs
        · exact cons_lt_cons (by omega) (by omega) fun _ =>
            cons_lt_cons (by omega) (by omega) fun _ =>
            cons_lt_cons (by omega) (by omega) fun _ => absurd hlt (by omega)
        · exact cons_lt_cons (by omega) (by omega) fun heq => absurd heq (by omega)
      · rw [if_neg (show ¬ n < 0x10000 by omega)]
        exact cons_lt_cons (by omega) (by omega) fun _ =>
          cons_lt_cons (by omega) (by omega) fun _ =>
          cons_lt_cons (by omega) (by omega) fun _ =>
          cons_lt_cons (by omega) (by omega) fun _ => absurd hlt (by omega)

theorem encodeChar_ne_nil (c : Char) : encodeChar c ≠ [] := by
  unfold encodeChar
  dsimp only
  split_ifs <;> exact List.cons_ne_nil _ _

theorem encodeChars_lt {a b : List Char} (h : a < b) : encodeChars a < encodeChars b := by
  induction a generalizing b with
  | nil =>
    cases b with
    | nil => exact absurd h (List.not_lt_nil _)
    | cons d rest =>
      obtain ⟨byte, bytes, hbytes⟩ := List.exists_cons_of_ne_nil (encodeChar_ne_nil d)
      rw [encodeChars, encodeChars, List.flatMap_cons, hbytes]
      exact List.nil_lt_cons _ _
  | cons c tail ih =>
    cases b with
    | nil => exact absurd h (List.not_lt_nil _)
    | cons d rest =>
      rcases List.cons_lt_cons_iff.1 h with hlt | ⟨rfl, hrest⟩
      · exact encodeChar_append_lt hlt _ _
      · exact List.append_left_lt (ih hrest)

/-- **The bytes of texts are in the order of the texts.** -/
theorem encode_lt_iff {a b : String} : encode a < encode b ↔ a < b := by
  constructor
  · intro h
    rcases lt_trichotomy a b with hlt | rfl | hgt
    · exact hlt
    · exact absurd h (List.lt_irrefl _)
    · exact absurd h (List.lt_asymm (encodeChars_lt hgt))
  · exact fun h => encodeChars_lt h

end LineScript.Utf8
