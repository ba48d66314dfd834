import LineScript.Proofs.Token.Newline

/-!
# Scanning line by line

Where a text can be scanned, and the text on the lines behind it, so can both together: the tokens
are those of the first and then those of the second (`scan_append`). Only two things are different.
The tokens of the second stand further on in the text, and the newline between the two ends the line
of the last token of the first.

The scanner goes from the left while it is defined from the right, so all of this is by induction on
what is left of the text; `scanFrom_induct` has that induction once.
-/

set_option autoImplicit false

namespace LineScript

/-- The span `k` bytes further on. -/
def Span.shift (k : Nat) (s : Span) : Span := ⟨s.start + k, s.stop + k⟩

namespace Token

/-- The token `k` bytes further on. -/
def shift (k : Nat) (t : Token) : Token := { t with span := t.span.shift k }

/-- A newline behind the last token. -/
def endLine : List Token → List Token
  | [] => []
  | [t] => [{ t with endsLine := true }]
  | t :: next :: rest => t :: endLine (next :: rest)

theorem endLine_concat (front : List Token) (last : Token) :
    endLine (front ++ [last]) = front ++ [{ last with endsLine := true }] := by
  induction front with
  | nil => rfl
  | cons t front ih =>
    cases front with
    | nil => rfl
    | cons next rest => exact congrArg (t :: ·) ih

/-! ## Steps of the scanner -/

variable {position : Nat} {text more : List Char} {r rest : Scanned}

theorem scanFrom_nil (position : Nat) :
    scanFrom position [] = .ok ⟨false, [Token.endOfFile position]⟩ := by
  rw [scanFrom]

theorem scanFrom_step (hne : text ≠ []) (hlength : (Pattern.longest text).length ≠ 0)
    (hrest : scanFrom (position + byteLength (text.take (Pattern.longest text).length))
      (text.drop (Pattern.longest text).length) = .ok rest) :
    scanFrom position text = .ok (attach (Pattern.longest text).kind
      (text.take (Pattern.longest text).length) position rest) := by
  obtain ⟨c, tail, rfl⟩ := List.exists_cons_of_ne_nil hne
  rw [scanFrom, dif_neg hlength]
  simp only [hrest]

theorem byteLength_take_drop (position n : Nat) (text : List Char) :
    position + byteLength (text.take n) + byteLength (text.drop n) =
      position + byteLength text := by
  rw [Nat.add_assoc, ← byteLength_append, List.take_append_drop]

/-- Induction over the matches of a text that can be scanned. -/
theorem scanFrom_induct {motive : Nat → List Char → Scanned → Prop}
    (nil : ∀ position, motive position [] ⟨false, [Token.endOfFile position]⟩)
    (step : ∀ {position text rest}, text ≠ [] → (Pattern.longest text).length ≠ 0 →
      scanFrom (position + byteLength (text.take (Pattern.longest text).length))
        (text.drop (Pattern.longest text).length) = .ok rest →
      motive (position + byteLength (text.take (Pattern.longest text).length))
        (text.drop (Pattern.longest text).length) rest →
      motive position text (attach (Pattern.longest text).kind
        (text.take (Pattern.longest text).length) position rest))
    (h : scanFrom position text = .ok r) : motive position text r := by
  induction hn : text.length using Nat.strong_induction_on generalizing position text r with
  | _ n ih =>
    cases text with
    | nil =>
      rw [scanFrom_nil] at h
      obtain rfl := Except.ok.inj h
      exact nil position
    | cons c tail =>
      have hne : c :: tail ≠ [] := List.cons_ne_nil c tail
      rw [scanFrom] at h
      split at h
      · cases h
      · rename_i hlength
        dsimp only at h
        split at h
        · cases h
        · rename_i rest hrest
          obtain rfl := Except.ok.inj h
          refine step hne hlength hrest (ih _ ?_ hrest rfl)
          rw [List.length_drop, ← hn, List.length_cons]
          omega

/-- The tokens of a text are closed by one end of file. -/
theorem scanFrom_tokens (h : scanFrom position text = .ok r) :
    ∃ body, r.tokens = body ++ [Token.endOfFile (position + byteLength text)] ∧
      ∀ t ∈ body, t.kind ≠ .endOfFile := by
  refine scanFrom_induct (motive := fun position text r => ∃ body,
    r.tokens = body ++ [Token.endOfFile (position + byteLength text)] ∧
      ∀ t ∈ body, t.kind ≠ .endOfFile) ?_ ?_ h
  · exact fun position => ⟨[], rfl, List.forall_mem_nil _⟩
  · intro position text rest hne hlength _ ih
    obtain ⟨body, htokens, hbody⟩ := ih
    rw [byteLength_take_drop] at htokens
    have hkind := Pattern.longest_kind_ne text
    unfold attach
    split
    · exact ⟨body, htokens, hbody⟩
    · exact ⟨body, htokens, hbody⟩
    · rename_i kind hlongest
      refine ⟨_ :: body, by rw [htokens, List.cons_append], List.forall_mem_cons.2 ⟨?_, hbody⟩⟩
      rintro rfl
      exact hkind hlongest

/-! ## Moving on -/

/-- The tokens `k` bytes further on. -/
def Scanned.shift (k : Nat) (r : Scanned) : Scanned := ⟨r.newline, r.tokens.map (Token.shift k)⟩

theorem attach_shift (k : Nat) (kind : Option TokenKind) (taken : List Char) (position : Nat)
    (rest : Scanned) :
    attach kind taken (position + k) (rest.shift k) =
      (attach kind taken position rest).shift k := by
  unfold attach
  split
  · rfl
  · rfl
  · simp [Scanned.shift, Token.shift, Span.shift, Nat.add_right_comm]

/-- The place where a text starts only moves its tokens. -/
theorem scanFrom_shift (k : Nat) (h : scanFrom position text = .ok r) :
    scanFrom (position + k) text = .ok (r.shift k) := by
  refine scanFrom_induct
    (motive := fun position text r => scanFrom (position + k) text = .ok (r.shift k)) ?_ ?_ h
  · intro position
    rw [scanFrom_nil]
    simp [Scanned.shift, Token.shift, Span.shift, Token.endOfFile, Span.point]
  · intro position text rest hne hlength _ ih
    rw [Nat.add_right_comm] at ih
    rw [scanFrom_step hne hlength ih, attach_shift]

/-! ## One text behind another -/

/-- The tokens of a text and then those of the next lines. -/
def Scanned.join (r rest : Scanned) : Scanned :=
  ⟨r.tokens.dropLast.isEmpty || r.newline, endLine r.tokens.dropLast ++ rest.tokens⟩

theorem attach_join (kind : Option TokenKind) (taken : List Char) (position : Nat)
    (hne : r.tokens ≠ []) (rest : Scanned) :
    attach kind taken position (r.join rest) = (attach kind taken position r).join rest := by
  obtain ⟨newline, tokens⟩ := r
  obtain ⟨t, others, rfl⟩ := List.exists_cons_of_ne_nil hne
  unfold attach
  split
  · rfl
  · simp [Scanned.join]
  · cases others <;> simp [Scanned.join, endLine]

/-- The tokens of a text are the same with more lines behind it. -/
theorem scanFrom_append (h : scanFrom position text = .ok r)
    (hmore : scanFrom (position + byteLength text + 1) more = .ok rest) :
    scanFrom position (text ++ '\n' :: more) = .ok (r.join rest) := by
  refine scanFrom_induct (motive := fun position text r =>
    scanFrom (position + byteLength text + 1) more = .ok rest →
      scanFrom position (text ++ '\n' :: more) = .ok (r.join rest)) ?_ ?_ h hmore
  · intro position hmore
    have hnewline := Pattern.longest_newline more
    have hstep : scanFrom
        (position + byteLength (('\n' :: more).take (Pattern.longest ('\n' :: more)).length))
        (('\n' :: more).drop (Pattern.longest ('\n' :: more)).length) = .ok rest := by
      rw [hnewline]
      exact hmore
    rw [List.nil_append,
      scanFrom_step (List.cons_ne_nil _ _) (by rw [hnewline]; decide) hstep, hnewline]
    rfl
  · intro position text r hne hlength hscan ih hmore
    have hlongest := Pattern.longest_append_newline hne hlength more
    have hle := Pattern.longest_length_le text
    have htokens : r.tokens ≠ [] := by
      obtain ⟨body, htokens, _⟩ := scanFrom_tokens hscan
      simp [htokens]
    rw [byteLength_take_drop] at ih
    have hstep : scanFrom
        (position +
          byteLength ((text ++ '\n' :: more).take (Pattern.longest (text ++ '\n' :: more)).length))
        ((text ++ '\n' :: more).drop (Pattern.longest (text ++ '\n' :: more)).length) =
          .ok (r.join rest) := by
      rw [hlongest, List.take_append_of_le_length hle, List.drop_append_of_le_length hle]
      exact ih hmore
    rw [scanFrom_step (List.append_ne_nil_of_left_ne_nil hne _) (by rwa [hlongest]) hstep, hlongest,
      List.take_append_of_le_length hle, attach_join _ _ _ htokens]

theorem scan_eq_ok_iff {source : String} {tokens : List Token} :
    scan source = .ok tokens ↔ ∃ r, scanFrom 0 source.toList = .ok r ∧ r.tokens = tokens := by
  rw [scan]
  cases scanFrom 0 source.toList with
  | error e => simp [Except.map]
  | ok r => simp [Except.map]

/-- The tokens of a source are closed by one end of file. -/
theorem scan_tokens {source : String} {tokens : List Token} (h : scan source = .ok tokens) :
    ∃ body closing, tokens = body ++ [closing] ∧ closing.kind = .endOfFile ∧
      ∀ t ∈ body, t.kind ≠ .endOfFile := by
  obtain ⟨r, hr, rfl⟩ := scan_eq_ok_iff.1 h
  obtain ⟨body, htokens, hbody⟩ := scanFrom_tokens hr
  exact ⟨body, _, htokens, rfl, hbody⟩

/-- **Texts are scanned line by line.** -/
theorem scan_append {first second : String} {tokens tokens' : List Token}
    (h : scan first = .ok tokens) (h' : scan second = .ok tokens') :
    scan (first ++ "\n" ++ second) =
      .ok (endLine tokens.dropLast ++ tokens'.map (Token.shift (byteLength first.toList + 1))) := by
  obtain ⟨r, hr, rfl⟩ := scan_eq_ok_iff.1 h
  obtain ⟨rest, hrest, rfl⟩ := scan_eq_ok_iff.1 h'
  have hmoved := scanFrom_shift (byteLength first.toList + 1) hrest
  rw [Nat.zero_add] at hmoved
  refine scan_eq_ok_iff.2 ⟨r.join (rest.shift (byteLength first.toList + 1)), ?_, rfl⟩
  have htext : (first ++ "\n" ++ second).toList = first.toList ++ '\n' :: second.toList := by simp
  rw [htext]
  refine scanFrom_append hr ?_
  rwa [Nat.zero_add]

end Token

end LineScript
