import LineScript.Grammar.Literal
import LineScript.Proofs.DecimalText
import LineScript.Proofs.Text.Utf8

/-!
# Literals as they are written

`Value.token` is a token for a value. It denotes the value without a fault wherever any token
denotes the value at all (`denoted?_token`): text with a bad escape, a number too large to hold and
a char literal of the wrong length stand for values that can be written properly as well.
-/

set_option autoImplicit false

namespace LineScript

/-! ## Escapes -/

/-- Text as it stands between quotes: backslashes, the quote itself and newlines are escaped. -/
def escape (quote : Char) : List Char → List Char
  | [] => []
  | c :: rest =>
    if c = '\\' ∨ c = quote then '\\' :: c :: escape quote rest
    else if c = '\n' then '\\' :: 'n' :: escape quote rest
    else c :: escape quote rest

/-- Reading escapes undoes writing them. -/
theorem unescape_escape {quote : Char} (hquote : escape? quote = some quote) (text : List Char) :
    unescape (escape quote text) = ⟨text, []⟩ := by
  induction text with
  | nil => rfl
  | cons c rest ih =>
    rw [escape]
    split
    · rename_i hc
      have hescape : escape? c = some c := by
        rcases hc with rfl | rfl
        · rfl
        · exact hquote
      rw [unescape, hescape, ih]
    · split
      · rename_i hnewline
        subst hnewline
        rw [unescape, ih]
        rfl
      · rename_i hc _
        rw [unescape, ih]
        exact fun _ _ heq _ => absurd (Or.inl heq) hc

/-! ## Tokens -/

/-- What is wrong with the literal that a token is, if it is one. -/
def Token.faults (t : Token) : List LiteralError :=
  match t.denoted? with
  | some denoted => denoted.errors
  | none => []

/-- Some token denotes the value. -/
def Value.Denotable (v : Value) : Prop :=
  ∃ (t : Token) (denoted : Denoted), t.denoted? = some denoted ∧ denoted.value = v

/-- The kind and the text of a literal. -/
def Value.spelling : Value → TokenKind × String
  | .number n => (.numberLiteral, n.render)
  | .bool b => (.boolLiteral, if b then "true" else "false")
  | .string s => (.stringLiteral, String.ofList (escape '\x22' s.toList))
  | .char c => (.charLiteral, String.ofList (escape '\x27' [c]))
  | .data bytes => (.dataLiteral, Utf8.decodeLossy bytes)
  | _ => (.identifier, "")

/-- A token for a value, on a line with the token behind it. -/
def Value.token (v : Value) : Token := ⟨v.spelling.1, v.spelling.2, false, default⟩

/-- What a token denotes is a scalar that a number, a text or a truth value stands for. -/
theorem Value.Denotable.cases {v : Value} (h : v.Denotable) :
    (∃ n : Decimal, n.Canonical ∧ n.coefficient ≠ Decimal.minCoefficient ∧ v = .number n) ∨
      (∃ b, v = .bool b) ∨
      (∃ s, v = .string s) ∨ (∃ c, v = .char c) ∨ ∃ text, v = .data (Utf8.encode text) := by
  obtain ⟨t, denoted, ht, rfl⟩ := h
  unfold Token.denoted? at ht
  split at ht
  · obtain rfl := Option.some.inj ht
    exact Or.inr (Or.inl ⟨_, rfl⟩)
  · obtain rfl := Option.some.inj ht
    exact Or.inr (Or.inr (Or.inr (Or.inr ⟨_, rfl⟩)))
  · split at ht
    · rename_i n hn
      obtain rfl := Option.some.inj ht
      exact Or.inl ⟨n, Decimal.canonical_of_parse hn, Decimal.coefficient_ne_of_parse hn, rfl⟩
    · obtain rfl := Option.some.inj ht
      exact Or.inl ⟨.zero, ⟨by decide, by decide, fun h => absurd h (by decide)⟩, by decide, rfl⟩
  · obtain rfl := Option.some.inj ht
    exact Or.inr (Or.inr (Or.inl ⟨_, rfl⟩))
  · obtain rfl := Option.some.inj ht
    exact Or.inr (Or.inr (Or.inr (Or.inl ⟨_, rfl⟩)))
  · cases ht

/-- The token of a value denotes it without a fault, if any token denotes it. -/
theorem Value.Denotable.denoted?_token {v : Value} (h : v.Denotable) :
    v.token.denoted? = some ⟨v, []⟩ := by
  rcases h.cases with ⟨n, hcanonical, hmin, rfl⟩ | ⟨b, rfl⟩ | ⟨s, rfl⟩ | ⟨c, rfl⟩ | ⟨text, rfl⟩
  · have hread : Decimal.parse (Value.number n).token.value = .ok n :=
      Decimal.parse_render hcanonical hmin
    simp only [Token.denoted?, Value.token, Value.spelling] at hread ⊢
    rw [hread]
  · cases b <;> rfl
  · simp [Token.denoted?, Value.token, Value.spelling,
      unescape_escape (show escape? '\x22' = some '\x22' from rfl)]
  · simp [Token.denoted?, Value.token, Value.spelling,
      unescape_escape (show escape? '\x27' = some '\x27' from rfl)]
  · simp [Token.denoted?, Value.token, Value.spelling, Utf8.decodeLossy_encode]

end LineScript
