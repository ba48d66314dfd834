import LineScript.Proofs.Grammar.Places
import LineScript.Proofs.LosslessScan

/-!
# Layout is of no account

A source can be written anew from its tokens, with nothing behind each of them but a newline, if it
ends its line, and a space, if it does not. The text that comes of it means what the source means:
it has the same tokens, the same program, code and output, or the same error, and only places differ
(`Source.relaid_alike`).

All of this is a matter of the scanner, since places decide nothing behind it (`Source.run_alike`).
What is chosen in front of the text behind it is chosen in front of a space or a newline as well
(`Chosen.separate`): no text of any kind goes on over a separator behind a token. Between quotes
there may be separators, but what is between quotes already ends with the token.
-/

set_option autoImplicit false

namespace LineScript

/-- What is written behind a token. -/
def separator (endsLine : Bool) : Char := if endsLine then '\n' else ' '

/-- A token as it is written in the source, and the separator behind it. -/
def Token.relaid (source : String) (t : Token) : List Char :=
  (t.span.slice source).toList ++ [separator t.endsLine]

/-- A source that is written anew, token by token. -/
def Source.relaid (source : String) (tokens : List Token) : String :=
  String.ofList ((tokens.filter (·.kind ≠ .endOfFile)).flatMap (Token.relaid source))

namespace Pattern

variable {kind : Option TokenKind} {taken more rest : List Char} {endsLine : Bool} {k : TokenKind}

/-! ## Texts that end with a token -/

/-- Only blanks start with a blank. -/
theorem kind_of_blank {c : Char} (hc : isBlank c = true)
    (h : c :: rest ∈ language kind) : kind = none := by
  rcases mem_language_iff.1 h with ⟨k, hword, rfl⟩ | ⟨entry, hentry, rfl, htaken⟩
  · have hwords : ∀ word ∈ words, word.1.head?.all (!isBlank ·) = true := by decide
    simpa [hc] using hwords _ hword
  · rw [← kindOf_class hentry htaken]
    rcases isBlank_iff.1 hc with rfl | rfl | rfl <;> rfl

/-- No literal between quotes goes on as another. -/
theorem quotedText_closed {quote : Char} (hslash : quote ≠ '\\') (h : taken ∈ quotedText quote)
    (hmore : taken ++ more ∈ quotedText quote) : more = [] := by
  obtain ⟨body, hbody, rfl⟩ := mem_quotedText.1 h
  obtain ⟨body', hbody', heq⟩ := mem_quotedText.1 hmore
  have htail : body ++ quote :: more = body' ++ [quote] := by simpa using heq
  -- Both bodies end at the first quote that closes the text.
  have hlength := closing?_append hslash hbody more
  rw [htail, closing?_append hslash hbody' [], Option.some.injEq] at hlength
  have hlengths := congrArg List.length htail
  simp only [List.length_append, List.length_cons, List.length_nil] at hlengths
  exact List.length_eq_zero_iff.1 (by omega)

theorem rawText_closed (h : taken ∈ rawText) (hmore : taken ++ more ∈ rawText) : more = [] := by
  obtain ⟨body, hbody, rfl⟩ := mem_rawText.1 h
  obtain ⟨body', hbody', heq⟩ := mem_rawText.1 hmore
  have htail : body ++ '\x60' :: more = body' ++ ['\x60'] := by simpa using heq
  have hbodies := takeWhile_append_stop hbody more
  rw [htail, takeWhile_append_stop hbody' []] at hbodies
  subst hbodies
  exact (List.cons.inj (List.append_cancel_left htail)).2

/-- Only a literal goes on as a literal between quotes. -/
theorem eq_nil_of_quotedText {quote : Char} (hquote : quote = '\x22' ∨ quote = '\x27')
    (hne : taken ≠ []) (h : taken ∈ language kind)
    (hmore : taken ++ more ∈ quotedText quote) : more = [] := by
  obtain ⟨c, tail, rfl⟩ := List.exists_cons_of_ne_nil hne
  obtain ⟨_, _, heq⟩ := mem_quotedText.1 hmore
  obtain ⟨rfl, _⟩ := List.cons.inj heq
  have hslash : c ≠ '\\' := by rcases hquote with rfl | rfl <;> decide
  exact quotedText_closed hslash (mem_quotedText_of_cons hquote h) hmore

theorem eq_nil_of_rawText (hne : taken ≠ []) (h : taken ∈ language kind)
    (hmore : taken ++ more ∈ rawText) : more = [] := by
  obtain ⟨c, tail, rfl⟩ := List.exists_cons_of_ne_nil hne
  obtain ⟨_, _, heq⟩ := mem_rawText.1 hmore
  obtain ⟨rfl, _⟩ := List.cons.inj heq
  obtain rfl := kind_of_kindOf (k := .dataLiteral) rfl (by decide) h
  exact rawText_closed h hmore

/-! ## Separators -/

/-- No word goes on with a separator. -/
theorem words_separator :
    ∀ word ∈ words, word.1.tail.all (fun c => c != ' ' && c != '\n') = true := by decide

/-- What a separator is not, so that no token goes on with it. -/
theorem separator_apart (endsLine : Bool) :
    (separator endsLine).isDigit = false ∧ isNamePart (separator endsLine) = false ∧
      separator endsLine ≠ '.' ∧ separator endsLine ≠ '/' := by
  cases endsLine <;> decide

theorem numberText_part (h : taken ∈ numberText) : ∀ c ∈ taken, c.isDigit = true ∨ c = '.' := by
  obtain ⟨whole, hwhole, rfl | ⟨fraction, hfraction, rfl⟩⟩ := mem_numberText.1 h
  · exact fun c hc => Or.inl ((mem_digits.1 hwhole).2 c hc)
  · intro c hc
    rcases List.mem_append.1 hc with hc | hc
    · exact Or.inl ((mem_digits.1 hwhole).2 c hc)
    · rcases List.mem_cons.1 hc with rfl | hc
      · exact Or.inr rfl
      · exact Or.inl ((mem_digits.1 hfraction).2 c hc)

theorem nameText_part (h : taken ∈ nameText) : ∀ c ∈ taken, isNamePart c = true := by
  obtain ⟨c, tail, hc, htail, rfl⟩ := mem_nameText.1 h
  refine List.forall_mem_cons.2 ⟨?_, htail⟩
  simp only [isNameStart, isNamePart, Char.isAlphanum, Bool.or_eq_true] at hc ⊢
  exact hc.imp_left Or.inl

/-- A comment that goes on over a separator behind some text has already begun in it. -/
theorem mem_commentText_of_separated (hne : taken ≠ [])
    (h : taken ++ separator endsLine :: more ∈ commentText) : taken ∈ commentText := by
  obtain ⟨body, hbody, heq⟩ := mem_commentText.1 h
  obtain ⟨c, tail, rfl⟩ := List.exists_cons_of_ne_nil hne
  obtain ⟨rfl, htail⟩ := List.cons.inj heq
  cases tail with
  | nil => exact absurd (List.cons.inj htail).1 (separator_apart endsLine).2.2.2
  | cons d tail =>
    obtain ⟨rfl, rfl⟩ := List.cons.inj htail
    exact mem_commentText.2 ⟨tail, fun hmem => hbody (List.mem_append_left _ hmem), rfl⟩

/-- No text of any kind goes on over a separator behind a token. -/
theorem not_mem_separated (hne : taken ≠ []) (htaken : taken ∈ language (some k))
    (hskipped : taken ∉ language none) : taken ++ separator endsLine :: more ∉ language kind := by
  intro h
  have hpart : separator endsLine ∈ taken ++ separator endsLine :: more :=
    List.mem_append_right _ List.mem_cons_self
  obtain ⟨hdigit, hname, hpoint, _⟩ := separator_apart endsLine
  rcases mem_language_iff.1 h with ⟨_, hword, rfl⟩ | ⟨entry, hentry, rfl, hclass⟩
  · obtain ⟨c, tail, rfl⟩ := List.exists_cons_of_ne_nil hne
    have hfree :=
      List.all_eq_true.1 (words_separator _ hword) _ (List.mem_append_right tail List.mem_cons_self)
    cases endsLine <;> cases hfree
  · simp only [classes, List.mem_cons, List.not_mem_nil, or_false] at hentry
    rcases hentry with rfl | rfl | rfl | rfl | rfl | rfl | rfl
    · -- Blanks would be blanks from the start.
      obtain ⟨c, tail, rfl⟩ := List.exists_cons_of_ne_nil hne
      cases kind_of_blank ((mem_blankText.1 hclass).2 c List.mem_cons_self) htaken
    · exact hskipped (Or.inr (mem_commentText_of_separated hne hclass))
    · exact List.cons_ne_nil _ _ (eq_nil_of_quotedText (Or.inr rfl) hne htaken hclass)
    · exact List.cons_ne_nil _ _ (eq_nil_of_rawText hne htaken hclass)
    · rcases numberText_part hclass _ hpart with heq | heq
      · exact Bool.false_ne_true (hdigit.symm.trans heq)
      · exact hpoint heq
    · exact List.cons_ne_nil _ _ (eq_nil_of_quotedText (Or.inl rfl) hne htaken hclass)
    · exact Bool.false_ne_true (hname.symm.trans (nameText_part hclass _ hpart))

/-! ## Tokens between separators -/

/-- A token is chosen in front of a separator, if it is chosen in front of anything. -/
theorem Chosen.separate (h : Chosen (some k) taken rest) (endsLine : Bool) (more : List Char) :
    Chosen (some k) taken (separator endsLine :: more) := by
  refine ⟨h.nonempty, h.mem, fun {kind' other} hfront hother => ?_, h.preferred⟩
  have hskipped : taken ∉ language none := fun hmem => by
    rcases h.preferred hmem with heq | heq <;> cases heq
  rcases List.prefix_or_prefix_of_prefix hfront (List.prefix_append taken _) with
    hshort | ⟨behind, rfl⟩
  · exact hshort.length_le
  · -- What goes on behind the token goes on with the separator.
    cases behind with
    | nil => rw [List.append_nil]
    | cons c behind =>
      obtain ⟨rfl, _⟩ := List.cons_prefix_cons.1 ((List.prefix_append_right_inj taken).1 hfront)
      exact absurd hother (not_mem_separated h.nonempty h.mem hskipped)

/-- A space in front of anything but blanks is skipped alone. -/
theorem chosen_space (h : ∀ c ∈ rest.head?, isBlank c = false) : Chosen none [' '] rest := by
  have hspace : [' '] ∈ blankText :=
    mem_blankText.2 ⟨List.cons_ne_nil _ _, List.forall_mem_singleton.2 rfl⟩
  refine ⟨List.cons_ne_nil _ _, Or.inl hspace, ?_, ?_⟩
  · rintro kind' other hfront hother
    rcases other with _ | ⟨a, _ | ⟨b, other⟩⟩
    · exact Nat.zero_le _
    · exact Nat.le_refl _
    · obtain ⟨rfl, hbehind⟩ := List.cons_prefix_cons.1 hfront
      obtain ⟨more, rfl⟩ := hbehind
      obtain rfl := kind_of_blank rfl hother
      rcases hother with hblank | hcomment
      · have hb := (mem_blankText.1 hblank).2 b (List.mem_cons_of_mem _ List.mem_cons_self)
        rw [h b rfl] at hb
        cases hb
      · obtain ⟨body, _, heq⟩ := mem_commentText.1 hcomment
        exact absurd (List.cons.inj heq).1 (by decide)
  · exact fun hother => Or.inl (kind_of_blank rfl hother)

/-- No token starts with a blank. -/
theorem Chosen.head (h : Chosen (some k) taken rest) : ∀ c ∈ taken.head?, isBlank c = false := by
  intro c hc
  obtain ⟨tail, rfl⟩ := List.head?_eq_some_iff.1 hc
  refine Bool.eq_false_iff.2 fun hblank => ?_
  cases kind_of_blank hblank h.mem

end Pattern

/-! ## The text that is written anew -/

/-- Places are of no account. -/
def Span.Anywhere (_ _ : Span) : Prop := True

theorem Span.anywhere_carried : Span.Carried Span.Anywhere where
  point _ := trivial
  merge _ _ := trivial

namespace Token

open Pattern

variable {source : String} {position : Nat} {text taken rest : List Char} {kind : Option TokenKind}
  {tokens : List Token}

/-- What is chosen at the head of a text is attached to what the rest is scanned as. -/
theorem scanFrom_chosen {r : Scanned} (h : Chosen kind taken rest)
    (hrest : scanFrom (position + byteLength taken) rest = .ok r) :
    scanFrom position (taken ++ rest) = .ok (attach kind taken position r) := by
  have hlongest := h.longest_eq
  have hstep := @scanFrom_step position (taken ++ rest) r (by simp [h.nonempty])
    (by rw [hlongest]; exact Nat.ne_of_gt (List.length_pos_of_ne_nil h.nonempty))
  rw [hlongest, List.take_left, List.drop_left] at hstep
  exact hstep hrest

/-- The separator behind a token is skipped, and says whether the line ends. -/
theorem scanFrom_separator (endsLine : Bool) (htext : ∀ c ∈ text.head?, isBlank c = false)
    (h : scanFrom (position + 1) text = .ok ⟨false, tokens⟩) :
    scanFrom position (separator endsLine :: text) = .ok ⟨endsLine, tokens⟩ := by
  cases endsLine with
  | false => exact scanFrom_chosen (chosen_space htext) h
  | true =>
    have hstep := @scanFrom_step position ('\n' :: text) ⟨false, tokens⟩ (List.cons_ne_nil _ _)
      (by rw [longest_newline]; decide)
    rw [longest_newline] at hstep
    exact hstep h

/-- A token is written anew as what was chosen for it. -/
theorem Placed.relaid {t : Token} (h : Placed source t) :
    ∃ taken behind, Chosen (some t.kind) taken behind ∧
      t.value = kept t.kind taken ∧ t.relaid source = taken ++ [separator t.endsLine] := by
  obtain ⟨front, taken, behind, hsource, hspan, _, hchosen, hvalue⟩ := h
  exact ⟨taken, behind, hchosen, hvalue,
    by rw [Token.relaid, hspan, Span.slice_eq hsource, String.toList_ofList]⟩

/-- The tokens written anew are scanned as the same tokens. -/
theorem scanFrom_relaid {body : List Token} (h : ∀ t ∈ body, Placed source t) (position : Nat) :
    (∀ c ∈ (body.flatMap (relaid source)).head?, isBlank c = false) ∧
      ∃ body' stop, scanFrom position (body.flatMap (relaid source)) = .ok ⟨false, body' ++
        [Token.endOfFile stop]⟩ ∧ List.Forall₂ (Token.Alike Span.Anywhere) body body' := by
  induction body generalizing position with
  | nil => exact ⟨by simp, [], position, scanFrom_nil position, .nil⟩
  | cons t body ih =>
    obtain ⟨ht, hbody⟩ := List.forall_mem_cons.1 h
    obtain ⟨taken, behind, hchosen, hvalue, hrelaid⟩ := ht.relaid
    -- Behind a space there is no other blank, so it is skipped alone and the next match is that of
    -- a token.
    obtain ⟨hhead, body', stop, hscan, halike⟩ := ih hbody (position + byteLength taken + 1)
    rw [List.flatMap_cons, hrelaid, List.append_assoc, List.singleton_append]
    refine ⟨?_, ⟨t.kind, t.value, t.endsLine, ⟨position, position + byteLength taken⟩⟩ :: body',
      stop, ?_, ?_⟩
    · rw [List.head?_append_of_ne_nil _ hchosen.nonempty]
      exact hchosen.head
    · rw [scanFrom_chosen (hchosen.separate t.endsLine _)
        (scanFrom_separator t.endsLine hhead hscan), attach_token ht.kind_ne.2, hvalue]
      rfl
    · exact .cons ⟨rfl, rfl, rfl, trivial⟩ halike

end Token

/-- Sources that have the same tokens, and so the same program, code and output, or the same error.
Only places differ. -/
structure Source.SameUpToPlaces (source other : String) (tokens tokens' : List Token) : Prop where
  scan : Token.scan source = .ok tokens ∧ Token.scan other = .ok tokens'
  alike : List.Forall₂ (Token.Alike Span.Anywhere) tokens tokens'
  program :
      Reading.Alike Span.Anywhere (List.Forall₂ (Statement.Alike Span.Anywhere))
        (Program.ofTokens tokens) (Program.ofTokens tokens')
  parse :
      Agree (SourceError.Alike Span.Anywhere) (List.Forall₂ (Statement.Alike Span.Anywhere))
        (Source.parse source) (Source.parse other)
  compile :
      Agree (SourceError.Alike Span.Anywhere) Eq (Source.compile source) (Source.compile other)
  run : ∀ limit sink, (Source.run source limit sink).output = (Source.run other limit sink).output ∧
    Agree (SourceError.Alike Span.Anywhere) Eq (Source.run source limit sink).result
      (Source.run other limit sink).result

/-- **Layout is of no account** beyond the ends of lines. -/
theorem Source.relaid_same {source : String} {tokens : List Token}
    (h : Token.scan source = .ok tokens) :
    ∃ tokens', Source.SameUpToPlaces source (Source.relaid source tokens) tokens tokens' := by
  obtain ⟨newline, ⟨body, rfl, hplaced⟩, _⟩ := Token.account_of_scan h
  obtain ⟨_, body', stop, hscan, hbody⟩ := Token.scanFrom_relaid hplaced 0
  -- Of the end of file nothing is written.
  have htext : (Source.relaid source (body ++ [Token.endOfFile source.utf8ByteSize])).toList =
      body.flatMap (Token.relaid source) := by
    have hkeep : body.filter (·.kind ≠ .endOfFile) = body :=
      List.filter_eq_self.2 fun t ht => by simpa using (hplaced t ht).kind_ne.1
    rw [Source.relaid, String.toList_ofList, List.filter_append, hkeep]
    exact congrArg (List.flatMap _) (List.append_nil body)
  have hother := Token.scan_eq_ok_iff.2 ⟨_, by rw [htext]; exact hscan, rfl⟩
  have halike : Token.ListAlike Span.Anywhere (body ++ [Token.endOfFile source.utf8ByteSize])
      (body' ++ [Token.endOfFile stop]) := .closed hbody ⟨rfl, rfl, rfl, trivial⟩ rfl
  exact ⟨_, {
    scan := ⟨h, hother⟩
    alike := List.rel_append hbody (.cons ⟨rfl, rfl, rfl, trivial⟩ .nil)
    program := Program.ofTokens_alike Span.anywhere_carried halike
    parse := Source.parse_alike Span.anywhere_carried h hother halike
    compile := Source.compile_alike Span.anywhere_carried h hother halike
    run := Source.run_alike Span.anywhere_carried h hother halike }⟩

set_option maxRecDepth 8192 in
/-- Of a comment no trace is left; a literal keeps its newline. -/
theorem Source.relaid_same_comment :
    ∃ tokens tokens', Source.relaid "x=`\n`//\nprint( x)" tokens = "x = `\n`\nprint ( x ) " ∧
      Source.SameUpToPlaces "x=`\n`//\nprint( x)" (Source.relaid "x=`\n`//\nprint( x)" tokens)
        tokens tokens' := by
  have hscan : Token.scan "x=`\n`//\nprint( x)" = .ok [⟨.identifier, "x", false, ⟨0, 1⟩⟩,
      ⟨.assign, "=", false, ⟨1, 2⟩⟩, ⟨.dataLiteral, "\n", true, ⟨2, 5⟩⟩,
      ⟨.identifier, "print", false, ⟨8, 13⟩⟩, ⟨.parenOpen, "(", false, ⟨13, 14⟩⟩,
      ⟨.identifier, "x", false, ⟨15, 16⟩⟩, ⟨.parenClose, ")", false, ⟨16, 17⟩⟩,
      ⟨.endOfFile, "", true, ⟨17, 17⟩⟩] := by
    with_unfolding_all rfl
  obtain ⟨tokens', hsame⟩ := Source.relaid_same hscan
  exact ⟨_, tokens', by with_unfolding_all rfl, hsame⟩

end LineScript
