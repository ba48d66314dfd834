import LineScript.Proofs.Token.Language

/-!
# The choice of the longest match

What the scanner takes at the head of a text, in terms of the languages of the tokens alone: the
longest text at the head that is in any of them, and the kind that it is of, where a name is only
what is nothing else (`Chosen`). The scanner computes exactly that (`chosen_longest`,
`Chosen.longest_eq`). Where nothing is chosen, it reports the longest text at the head that
something in a language begins with, and at least one character (`stuck_longestStart`).
-/

set_option autoImplicit false

open Computability

namespace LineScript

namespace Pattern

variable {kind : Option TokenKind} {text taken rest : List Char}

/-! ## Matches -/

/-- What is taken from the head of `taken ++ rest`. -/
structure Chosen (kind : Option TokenKind) (taken rest : List Char) : Prop where
  nonempty : taken ≠ []
  mem : taken ∈ language kind
  /-- No text of any kind at the head is longer. -/
  le :
      ∀ {kind' other}, other <+: taken ++ rest → other ∈ language kind' →
        other.length ≤ taken.length
  /-- A text that is of another kind than that of names is no name. -/
  preferred : ∀ {kind'}, taken ∈ language kind' → kind' = kind ∨ kind' = some .identifier

/-- No text is an end of file. -/
theorem Chosen.kind_ne {k : TokenKind} (h : Chosen (some k) taken rest) : k ≠ .endOfFile := by
  rintro rfl
  cases h.mem

/-- Nothing but the empty text is taken from the head of a text. -/
def Unmatched (text : List Char) : Prop :=
  ∀ kind other, other <+: text → other ∈ language kind → other = []

theorem foldl_better_le (best : Match) (others : List Match) :
    best.length ≤ (others.foldl Match.better best).length ∧
      ∀ other ∈ others, other.length ≤ (others.foldl Match.better best).length := by
  induction others generalizing best with
  | nil => exact ⟨Nat.le_refl _, List.forall_mem_nil _⟩
  | cons other others ih =>
    obtain ⟨hbest, hothers⟩ := ih (best.better other)
    have hle : best.length ≤ (best.better other).length ∧
        other.length ≤ (best.better other).length := by
      rw [Match.better]
      split <;> omega
    exact ⟨hle.1.trans hbest, List.forall_mem_cons.2 ⟨hle.2.trans hbest, hothers⟩⟩

theorem length_le_longest {rule : Rule} (h : rule ∈ rules) (text : List Char) :
    rule.length text ≤ (longest text).length := by
  rw [longest_eq]
  exact (foldl_better_le _ _).2 _
    (List.mem_map_of_mem (f := fun r : Rule => (⟨r.kind, r.length text⟩ : Match)) h)

/-- The rule for names is the last: it is chosen only if every other match is shorter. -/
theorem length_lt_longest (hname : (longest text).kind = some .identifier) {rule : Rule}
    (h : rule ∈ rules) (hother : rule.kind ≠ some .identifier) :
    rule.length text < (longest text).length := by
  have hrules : rules = rules.dropLast ++ [⟨some .identifier, name⟩] := rfl
  have hkinds : ∀ kind ∈ rules.dropLast.map Rule.kind, kind ≠ some .identifier := by decide
  have hlongest : longest text =
      ((rules.dropLast.map fun rule => ⟨rule.kind, rule.length text⟩).foldl Match.better
        ⟨none, 0⟩).better ⟨some .identifier, name text⟩ := by
    rw [longest_eq]
    conv_lhs => rw [hrules, List.map_append, List.foldl_append]
    rfl
  rw [hlongest, Match.better] at hname ⊢
  split at hname
  · rename_i hlt
    rw [if_pos hlt]
    rw [hrules, List.mem_append, List.mem_singleton] at h
    rcases h with h | rfl
    · have hle :=
        (foldl_better_le ⟨none, 0⟩ (rules.dropLast.map fun rule => ⟨rule.kind, rule.length text⟩)).2
          _ (List.mem_map_of_mem h)
      exact Nat.lt_of_le_of_lt hle hlt
    · exact absurd rfl hother
  · -- The best of the other matches is no name.
    rcases List.mem_cons.1 (foldl_better_mem ⟨none, 0⟩
      (rules.dropLast.map fun rule => ⟨rule.kind, rule.length text⟩)) with hnone | hmem
    · rw [hnone] at hname
      cases hname
    · obtain ⟨rule', hrule', hmatch⟩ := List.mem_map.1 hmem
      rw [← hmatch] at hname
      exact absurd hname (hkinds _ (List.mem_map_of_mem hrule'))

theorem exists_longest {other : List Char} (hother : other ∈ language kind)
    (hfront : other <+: text) :
    ∃ rule ∈ rules, rule.kind = kind ∧ other.length ≤ rule.length text := by
  obtain ⟨rest, rfl⟩ := hfront
  exact exists_rule hother rest

theorem le_longest {other : List Char} (hother : other ∈ language kind) (hfront : other <+: text) :
    other.length ≤ (longest text).length := by
  obtain ⟨rule, hrule, _, hle⟩ := exists_longest hother hfront
  exact hle.trans (length_le_longest hrule text)

/-- The longest match is what is chosen. -/
theorem chosen_longest (h : (longest text).length ≠ 0) :
    Chosen (longest text).kind (text.take (longest text).length)
      (text.drop (longest text).length) := by
  have hlength : (text.take (longest text).length).length = (longest text).length :=
    List.length_take_of_le (longest_length_le text)
  have hmem : text.take (longest text).length ∈ language (longest text).kind := by
    rcases longest_cases text with hnone | ⟨rule, hrule, hmatch⟩
    · rw [hnone] at h
      exact absurd rfl h
    · rw [hmatch] at h ⊢
      exact mem_language_of_rule hrule h
  refine ⟨?_, hmem, ?_, ?_⟩
  · intro hnil
    rw [hnil] at hlength
    exact h hlength.symm
  · intro kind' other hfront hother
    rw [List.take_append_drop] at hfront
    rw [hlength]
    exact le_longest hother hfront
  · intro kind' hother
    rcases language_unique hmem hother with hsame | hname | hname
    · exact Or.inl hsame
    · -- A name that is also of another kind would have been found by a rule in front.
      refine Or.inr (Classical.byContradiction fun hkind => ?_)
      obtain ⟨rule, hrule, rfl, hle⟩ := exists_longest hother (List.take_prefix _ text)
      have hlt := length_lt_longest hname hrule hkind
      omega
    · exact Or.inr hname

/-- What is chosen is the longest match. -/
theorem Chosen.longest_eq (h : Chosen kind taken rest) :
    longest (taken ++ rest) = ⟨kind, taken.length⟩ := by
  have hle := le_longest h.mem (List.prefix_append taken rest)
  have hpos := List.length_pos_of_ne_nil h.nonempty
  have hlongest : (longest (taken ++ rest)).length ≠ 0 := by omega
  have hchosen := chosen_longest hlongest
  have hge := h.le (List.take_prefix _ _) hchosen.mem
  rw [List.length_take_of_le (longest_length_le _)] at hge
  have hlength : (longest (taken ++ rest)).length = taken.length := Nat.le_antisymm hge hle
  rw [hlength, List.take_left] at hchosen
  have hkind : (longest (taken ++ rest)).kind = kind := by
    rcases h.preferred hchosen.mem with hsame | hname
    · exact hsame
    · rcases hchosen.preferred h.mem with hsame | hname'
      · exact hsame.symm
      · exact hname.trans hname'.symm
  rw [← hkind, ← hlength]

theorem unmatched_iff : Unmatched text ↔ (longest text).length = 0 := by
  constructor
  · intro h
    refine Classical.byContradiction fun hlength => ?_
    have hchosen := chosen_longest hlength
    exact hchosen.nonempty (h _ _ (List.take_prefix _ _) hchosen.mem)
  · intro h kind other hfront hother
    have hle := le_longest hother hfront
    exact List.length_eq_zero_iff.1 (by omega)

/-! ## Where nothing matches -/

/-- Something of a kind begins with the text. -/
def Begins (text : List Char) : Prop := ∃ kind rest, text ++ rest ∈ language kind

/-- The longest text at the head that something of a kind begins with, and at least one
character. -/
structure LongestStart (text snippet : List Char) : Prop where
  starts : snippet <+: text
  nonempty : snippet ≠ []
  begins : Begins snippet ∨ snippet.length = 1
  le : ∀ {other}, other <+: text → Begins other → other.length ≤ snippet.length

/-- What starts like a text of another class than that of names is of that class. -/
theorem kind_of_kindOf {k : TokenKind} (hkind : kindOf taken = some k) (hname : k ≠ .identifier)
    (h : taken ∈ language kind) : kind = some k := by
  rcases mem_language_iff.1 h with ⟨k', hword, rfl⟩ | ⟨entry, hentry, rfl, htaken⟩
  · have hwords : ∀ word ∈ words, kindOf word.1 = none ∨ kindOf word.1 = some .identifier := by
      decide
    rcases hwords _ hword with hnone | hidentifier
    · rw [hkind] at hnone
      cases hnone
    · rw [hkind] at hidentifier
      exact absurd (Option.some.inj hidentifier) hname
  · rw [← hkind, kindOf_class hentry htaken]

/-- A text that starts with a quote is a literal between such quotes. -/
theorem mem_quotedText_of_cons {quote : Char} (hquote : quote = '\x22' ∨ quote = '\x27')
    (h : quote :: rest ∈ language kind) : quote :: rest ∈ quotedText quote := by
  rcases hquote with rfl | rfl
  · obtain rfl := kind_of_kindOf (k := .stringLiteral) rfl (by decide) h
    exact h
  · obtain rfl := kind_of_kindOf (k := .charLiteral) rfl (by decide) h
    exact h

theorem mem_language_of_quotedText {quote : Char} (hquote : quote = '\x22' ∨ quote = '\x27') :
    ∃ kind, quotedText quote = language kind := by
  rcases hquote with rfl | rfl
  · exact ⟨some .stringLiteral, rfl⟩
  · exact ⟨some .charLiteral, rfl⟩

/-- Literals between quotes stand on one line. -/
theorem newline_not_mem_quotedText {quote : Char} (hquote : quote ≠ '\n')
    (h : text ∈ quotedText quote) : '\n' ∉ text := by
  obtain ⟨_, ⟨chunks, rfl, hchunks⟩, rfl⟩ := mem_quotedText.1 h
  intro hmem
  simp only [List.mem_cons, List.mem_append, hquote.symm, List.not_mem_nil, or_false,
    false_or] at hmem
  obtain ⟨chunk, hchunk, hnewline⟩ := List.mem_flatten.1 hmem
  rcases hchunks chunk hchunk with ⟨c, ⟨_, _, hc⟩, rfl⟩ | hpair
  · exact hc (List.mem_singleton.1 hnewline).symm
  · obtain ⟨_, ⟨c, hc, rfl⟩, rfl⟩ := mem_singleton_mul.1 hpair
    simp only [List.singleton_append, List.mem_cons, List.not_mem_nil, or_false] at hnewline
    exact hc (hnewline.resolve_left (by decide)).symm

/-- A literal that is not closed on its line could have gone on up to the end of the line. -/
theorem exists_closing {quote : Char} (hquote : quote ≠ '\n') (h : closing? quote text = none) :
    ∃ body ∈ (quotedPart quote)∗, ∃ rest, text.takeWhile (· != '\n') ++ rest = body ++ [quote] := by
  -- A backslash in front of the end of the line may still go with the quote.
  have hslash : ∃ body ∈ (quotedPart quote)∗, ∃ rest, ['\\'] ++ rest = body ++ [quote] :=
    ⟨_, append_mem_star _ (pair_mem_quotedPart hquote) (Language.nil_mem_kstar _),
      [quote, quote], rfl⟩
  fun_induction closing? quote text with
  | case1 => exact ⟨[], Language.nil_mem_kstar _, [quote], rfl⟩
  | case2 rest => simpa using hslash
  | case3 c rest hc ih =>
    obtain ⟨body, hbody, more, hmore⟩ := ih (Option.map_eq_none_iff.1 h)
    refine ⟨_, append_mem_star _ (pair_mem_quotedPart hc) hbody, more, ?_⟩
    simpa [hc] using hmore
  | case4 => cases h
  | case5 c rest hnopair hne hstop =>
    rcases hstop with rfl | rfl
    · exact ⟨[], Language.nil_mem_kstar _, [quote], rfl⟩
    · cases rest with
      | nil => simpa using hslash
      | cons d rest => exact (hnopair d rest rfl rfl).elim
  | case6 c rest _ hne hstop ih =>
    obtain ⟨body, hbody, more, hmore⟩ := ih (Option.map_eq_none_iff.1 h)
    obtain ⟨hnewline, hbackslash⟩ := not_or.1 hstop
    refine ⟨_, append_mem_star [c] (Or.inl ⟨c, ⟨hne, hbackslash, hnewline⟩, rfl⟩) hbody, more, ?_⟩
    simpa [hnewline] using hmore

theorem longestStart_quoted {quote : Char} (hquote : quote = '\x22' ∨ quote = '\x27')
    (h : Unmatched (quote :: rest)) :
    LongestStart (quote :: rest) (quote :: rest.takeWhile (· != '\n')) := by
  have hnewline : quote ≠ '\n' := by rcases hquote with rfl | rfl <;> decide
  have hslash : quote ≠ '\\' := by rcases hquote with rfl | rfl <;> decide
  obtain ⟨kind, hkind⟩ := mem_language_of_quotedText hquote
  refine ⟨List.cons_prefix_cons.2 ⟨rfl, List.takeWhile_prefix _⟩, List.cons_ne_nil _ _,
    Or.inl ?_, ?_⟩
  · have hclosing : closing? quote rest = none := by
      refine Option.eq_none_iff_forall_ne_some.2 fun n hn => ?_
      obtain ⟨body, hbody, htake⟩ := closing?_mem hn
      have hmem : quote :: rest.take n ∈ language kind :=
        hkind ▸ htake ▸ mem_quotedText.2 ⟨body, hbody, rfl⟩
      exact List.cons_ne_nil _ _
        (h kind _ (List.cons_prefix_cons.2 ⟨rfl, List.take_prefix n rest⟩) hmem)
    obtain ⟨body, hbody, more, hmore⟩ := exists_closing hnewline hclosing
    refine ⟨kind, more, ?_⟩
    rw [List.cons_append, hmore, ← hkind]
    exact mem_quotedText.2 ⟨body, hbody, rfl⟩
  · rintro other hother ⟨kind', more, hmem⟩
    cases other with
    | nil => exact Nat.zero_le _
    | cons c other =>
      obtain ⟨rfl, more', rfl⟩ := List.cons_prefix_cons.1 hother
      have hline := newline_not_mem_quotedText hnewline (mem_quotedText_of_cons hquote hmem)
      refine Nat.succ_le_succ (length_le_takeWhile (fun d hd => ?_) more')
      simpa using
        fun heq : d = '\n' => hline (heq ▸ List.mem_cons_of_mem c (List.mem_append_left more hd))

theorem longestStart_raw (h : Unmatched ('\x60' :: rest)) :
    LongestStart ('\x60' :: rest) ('\x60' :: rest) := by
  refine ⟨List.prefix_refl _, List.cons_ne_nil _ _, Or.inl ⟨some .dataLiteral, ['\x60'], ?_⟩,
    fun hother _ => hother.length_le⟩
  refine mem_rawText.2 ⟨rest, fun hmem => ?_, rfl⟩
  -- With a backtick in the rest there would be a match.
  obtain ⟨body, more, rfl, hbody⟩ := List.eq_append_cons_of_mem hmem
  have hfront : '\x60' :: (body ++ ['\x60']) <+: '\x60' :: (body ++ '\x60' :: more) :=
    ⟨more, by simp⟩
  exact List.cons_ne_nil _ _ (h (some .dataLiteral) _ hfront (mem_rawText.2 ⟨body, hbody, rfl⟩))

/-- Words of more than two characters could be names. -/
theorem words_start :
    ∀ word ∈ words, word.1.length ≤ 2 ∨ word.1.head?.any isNameStart = true := by decide

/-- Where nothing matches and no quote is open, nothing of two characters or more could have
started. -/
theorem not_begins {c d : Char} (hquote : ¬ (c = '\x22' ∨ c = '\x27')) (hraw : c ≠ '\x60')
    {other : List Char} (h : Unmatched (c :: d :: other)) : ¬ Begins (c :: d :: other) := by
  rintro ⟨kind, rest, hmem⟩
  have hone : ∀ kind, [c] ∉ language kind :=
    fun kind hc => List.cons_ne_nil _ _ (h kind [c] ⟨d :: other, rfl⟩ hc)
  have hname : ¬ isNameStart c = true := fun hc =>
    hone (some .identifier) (mem_nameText.2 ⟨c, [], hc, List.forall_mem_nil _, rfl⟩)
  rcases mem_language_iff.1 hmem with ⟨k, hword, rfl⟩ | ⟨entry, hentry, rfl, htaken⟩
  · rcases words_start _ hword with hle | hstart
    · simp only [List.cons_append, List.length_cons, List.length_append] at hle
      obtain ⟨rfl, rfl⟩ : other = [] ∧ rest = [] :=
        ⟨List.length_eq_zero_iff.1 (by omega), List.length_eq_zero_iff.1 (by omega)⟩
      exact List.cons_ne_nil _ _ (h (some k) _ (List.prefix_refl _) hmem)
    · exact hname hstart
  · simp only [classes, List.mem_cons, List.not_mem_nil, or_false] at hentry
    rcases hentry with rfl | rfl | rfl | rfl | rfl | rfl | rfl
    · have hblank := (mem_blankText.1 htaken).2 c List.mem_cons_self
      exact hone none
        (Or.inl (mem_blankText.2 ⟨List.cons_ne_nil _ _, List.forall_mem_singleton.2 hblank⟩))
    · obtain ⟨body, _, heq⟩ := mem_commentText.1 htaken
      obtain ⟨rfl, _⟩ := List.cons.inj heq
      exact hone (some .divide) rfl
    · obtain ⟨body, _, heq⟩ := mem_quotedText.1 htaken
      exact hquote (Or.inr (List.cons.inj heq).1)
    · obtain ⟨body, _, heq⟩ := mem_rawText.1 htaken
      exact hraw (List.cons.inj heq).1
    · obtain ⟨whole, hwhole, htext⟩ := mem_numberText.1 htaken
      obtain ⟨hne, hdigits⟩ := mem_digits.1 hwhole
      obtain ⟨a, whole, rfl⟩ := List.exists_cons_of_ne_nil hne
      have hdigit := hdigits a List.mem_cons_self
      obtain rfl : c = a := by rcases htext with heq | ⟨_, _, heq⟩ <;> exact (List.cons.inj heq).1
      have hc : [c] ∈ digits :=
        mem_digits.2 ⟨List.cons_ne_nil _ _, List.forall_mem_singleton.2 hdigit⟩
      exact hone (some .numberLiteral) (mem_numberText.2 ⟨[c], hc, Or.inl rfl⟩)
    · obtain ⟨body, _, heq⟩ := mem_quotedText.1 htaken
      exact hquote (Or.inl (List.cons.inj heq).1)
    · obtain ⟨a, body, hstart, _, heq⟩ := mem_nameText.1 htaken
      obtain ⟨rfl, _⟩ := List.cons.inj heq
      exact hname hstart

/-- **Where nothing matches,** the scanner reports the longest text that could still have become a
match. -/
theorem stuck_longestStart (hne : text ≠ []) (h : Unmatched text) :
    LongestStart text (stuck text) := by
  obtain ⟨c, rest, rfl⟩ := List.exists_cons_of_ne_nil hne
  rw [stuck]
  split
  · rename_i hquote
    exact longestStart_quoted hquote h
  · rename_i hquote
    split
    · rename_i hraw
      subst hraw
      exact longestStart_raw h
    · rename_i hraw
      refine ⟨⟨rest, rfl⟩, List.cons_ne_nil _ _, Or.inr rfl, fun {other} hother hbegins => ?_⟩
      rcases other with _ | ⟨a, _ | ⟨b, other⟩⟩
      · exact Nat.zero_le _
      · exact Nat.le_refl _
      · obtain ⟨rfl, _⟩ := List.cons_prefix_cons.1 hother
        refine absurd hbegins (not_begins hquote hraw fun kind taken hfront hmem => ?_)
        exact h kind taken (hfront.trans hother) hmem

end Pattern

end LineScript
