import LineScript.Proofs.LayoutInvariance
import LineScript.Proofs.LiteralFaults

/-!
# Every string and every char has a literal

Between quotes a text is written with its backslashes, the quote and its newlines escaped
(`escape`). The scanner and the reader of escapes look at such a literal independently of each
other. For the scanner what is written is a row of single characters and of pairs behind a
backslash, so it looks for the end of the literal past all of them, and ends it at the closing quote
whatever stands behind (`chosen_quoted`). For the reader the same pairs stand for the characters
that were escaped (`unescape_escape`). So no string and no char is out of reach of a source
(`quoted_literals`).
-/

set_option autoImplicit false

open Computability

namespace LineScript

/-! ## Where the literal ends -/

namespace Pattern

variable {quote : Char} {taken : List Char}

/-- What is written between the quotes is a row of single characters and of pairs. -/
theorem escape_mem_star (hquote : quote ≠ '\n') (text : List Char) :
    escape quote text ∈ (quotedPart quote)∗ := by
  induction text with
  | nil => exact Language.nil_mem_kstar _
  | cons c rest ih =>
    rw [escape]
    split
    · rename_i hc
      refine append_mem_star ['\\', c] (pair_mem_quotedPart ?_) ih
      rcases hc with rfl | rfl
      · decide
      · exact hquote
    · rename_i hc
      obtain ⟨hslash, hne⟩ := not_or.1 hc
      split
      · exact append_mem_star ['\\', 'n'] (pair_mem_quotedPart (by decide)) ih
      · rename_i hnewline
        exact append_mem_star [c] (Or.inl ⟨c, ⟨hne, hslash, hnewline⟩, rfl⟩) ih

/-- The first closing quote ends the literal. -/
theorem quoted_eq_length (hslash : quote ≠ '\\') (h : taken ∈ quotedText quote) (rest : List Char) :
    quoted quote (taken ++ rest) = taken.length := by
  obtain ⟨body, hbody, rfl⟩ := mem_quotedText.1 h
  rw [List.cons_append, List.append_assoc, quoted, if_pos rfl, List.singleton_append,
    closing?_append hslash hbody]
  simp

/-- A literal between quotes is taken as it is, whatever stands behind it. -/
theorem chosen_quoted {k : TokenKind}
    (hquote : quote = '\x22' ∧ k = .stringLiteral ∨ quote = '\x27' ∧ k = .charLiteral)
    (h : taken ∈ quotedText quote) (rest : List Char) : Chosen (some k) taken rest := by
  have hslash : quote ≠ '\\' := by rcases hquote with ⟨rfl, _⟩ | ⟨rfl, _⟩ <;> decide
  have hlength := quoted_eq_length hslash h rest
  obtain ⟨body, hbody, rfl⟩ := mem_quotedText.1 h
  refine ⟨List.cons_ne_nil _ _, ?_, ?_, ?_⟩
  · rcases hquote with ⟨rfl, rfl⟩ | ⟨rfl, rfl⟩ <;> exact h
  · rintro kind' other ⟨more, hmore⟩ hother
    cases other with
    | nil => exact Nat.zero_le _
    | cons c other =>
      obtain ⟨rfl, _⟩ := List.cons.inj hmore
      have hmem := mem_quotedText_of_cons (hquote.imp And.left And.left) hother
      have hother := quoted_eq_length hslash hmem more
      rw [hmore] at hother
      omega
  · intro kind' hother
    rcases hquote with ⟨rfl, rfl⟩ | ⟨rfl, rfl⟩
    · exact Or.inl (kind_of_kindOf rfl (by decide) hother)
    · exact Or.inl (kind_of_kindOf rfl (by decide) hother)

end Pattern

/-! ## Sources of one literal -/

/-- A text that is taken as a whole is one token. -/
theorem Token.scan_of_chosen {kind : TokenKind} {taken : List Char} (hkind : kind ≠ .newline)
    (h : Pattern.Chosen (some kind) taken []) :
    scan (String.ofList taken) = .ok [⟨kind, kept kind taken, false, ⟨0, byteLength taken⟩⟩,
      Token.endOfFile (byteLength taken)] := by
  have hscan := @scanFrom_chosen 0 taken [] (some kind) _ h (scanFrom_nil _)
  rw [List.append_nil, attach_token hkind, Nat.zero_add] at hscan
  rw [scan, String.toList_ofList, hscan]
  rfl

/-- A literal in front of the end of the file is a program, with what is wrong with the literal. -/
theorem Program.ofTokens_literal {t closing : Token} (hclosing : closing.kind = .endOfFile)
    {denoted : Denoted} (h : t.denoted? = some denoted) :
    Program.ofTokens [t, closing] = ⟨denoted.errors, .ok [⟨.literal denoted.value, t.span⟩]⟩ := by
  have hend : t.kind ≠ .endOfFile := by
    intro hkind
    rw [Token.denoted?, hkind] at h
    cases h
  have hspells : Spells [t, closing] (Expr.literal denoted.value).yield 0 1 :=
    .cons rfl hend ⟨denoted, h, rfl⟩ (fun hjoins => by cases hjoins)
      (fun hjoins => by cases hjoins) .nil
  have hwell : (Expr.literal denoted.value).WellFormed :=
    Expr.all_iff.2 ⟨⟨t, denoted, h, rfl⟩, List.forall_mem_nil _⟩
  have hstop : (TokenStream.ofList [t, closing]).kind 1 = .endOfFile :=
    @TokenStream.kind_length [t] closing hclosing
  have hlines := Lines.cons hwell hspells (Or.inr hstop) .nil
  have hspan : (TokenStream.ofList [t, closing]).spanTo 0 1 = t.span := by
    have htoken : (TokenStream.ofList [t, closing]).token 0 = t := TokenStream.token_of_getElem? rfl
    rw [TokenStream.spanTo, htoken]
    simp [Span.merge]
  have hread := @ofTokens_of_lines [t] closing _ hclosing hlines
  rwa [List.flatMap_singleton, Token.faults, h, hspan] at hread

/-- The source is one literal, which is read as the value and has no fault. -/
structure Source.IsLiteral (source : String) (literal : Token) (v : Value) : Prop where
  scanned : Token.scan source = .ok [literal, Token.endOfFile source.utf8ByteSize]
  read :
      Program.ofTokens [literal, Token.endOfFile source.utf8ByteSize] =
        ⟨[], .ok [⟨.literal v, literal.span⟩]⟩
  parsed : Source.parse source = .ok [⟨.literal v, literal.span⟩]

/-- A source with nothing but a text between quotes. -/
def Source.quoted (quote : Char) (text : List Char) : String :=
  String.ofList (quote :: (escape quote text ++ [quote]))

/-- The token of such a source. -/
def Token.quoted (kind : TokenKind) (quote : Char) (text : List Char) : Token :=
  ⟨kind, String.ofList (escape quote text), false, ⟨0, (Source.quoted quote text).utf8ByteSize⟩⟩

theorem Source.isLiteral_quoted {kind : TokenKind} {quote : Char} {text : List Char} {v : Value}
    (hquote : quote = '\x22' ∧ kind = .stringLiteral ∨ quote = '\x27' ∧ kind = .charLiteral)
    (hv : (Token.quoted kind quote text).denoted? = some ⟨v, []⟩) :
    Source.IsLiteral (Source.quoted quote text) (Token.quoted kind quote text) v := by
  have hnewline : quote ≠ '\n' := by rcases hquote with ⟨rfl, _⟩ | ⟨rfl, _⟩ <;> decide
  have hkind : kind ≠ .newline := by rcases hquote with ⟨_, rfl⟩ | ⟨_, rfl⟩ <;> decide
  have hisQuoted : kind.isQuoted = true := by rcases hquote with ⟨_, rfl⟩ | ⟨_, rfl⟩ <;> rfl
  have hmem := Pattern.mem_quotedText.2 ⟨_, Pattern.escape_mem_star hnewline text, rfl⟩
  have hscan := Token.scan_of_chosen hkind (Pattern.chosen_quoted hquote hmem [])
  have hsize : byteLength (quote :: (escape quote text ++ [quote])) =
      (quoted quote text).utf8ByteSize := by
    rw [quoted, ← byteLength_toList, String.toList_ofList]
  rw [Token.kept, if_pos hisQuoted, List.tail_cons, List.dropLast_concat, hsize] at hscan
  have hend : (Token.endOfFile (quoted quote text).utf8ByteSize).kind = .endOfFile := rfl
  have hread := Program.ofTokens_literal hend hv
  exact ⟨hscan, hread,
    parse_eq_ok_iff.2 ⟨_, hscan, congrArg Reading.outcome hread, congrArg Reading.errors hread⟩⟩

/-- **Every string and every char has a literal.** Between double quotes, with its backslashes,
double quotes and newlines escaped, any text is scanned as one string literal, and read as a program
of the string alone, without a fault. Between single quotes the same is true of any character. -/
theorem Source.quoted_literals : (∀ s : String,
    IsLiteral (quoted '\x22' s.toList) (Token.quoted .stringLiteral '\x22' s.toList) (.string s)) ∧
    ∀ c : Char, IsLiteral (quoted '\x27' [c]) (Token.quoted .charLiteral '\x27' [c]) (.char c) := by
  have hdouble : ∀ text, unescape (escape '\x22' text) = ⟨text, []⟩ := unescape_escape rfl
  have hsingle : ∀ text, unescape (escape '\x27' text) = ⟨text, []⟩ := unescape_escape rfl
  refine ⟨fun s => isLiteral_quoted (Or.inl ⟨rfl, rfl⟩) ?_,
    fun c => isLiteral_quoted (Or.inr ⟨rfl, rfl⟩) ?_⟩
  · simp [Token.denoted?, Token.quoted, hdouble]
  · simp [Token.denoted?, Token.quoted, hsingle]

/-- The last backslash of a text does not take the closing quote along. -/
example : Source.quoted '\x22' ['a', '\x22', '\\'] = "\"a\\\"\\\\\"" := by decide

end LineScript
