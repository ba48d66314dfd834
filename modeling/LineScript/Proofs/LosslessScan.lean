import LineScript.Proofs.LongestMatch
import LineScript.Proofs.Text.Slice
import Mathlib.Data.List.Chain

/-!
# Scanning is lossless

The tokens of a source, with what stands between them, are the whole source. A token covers its
text, and between two tokens there is nothing but white space and comments (`Gap`); the mark at a
token says whether a newline is in the gap behind it.

The scanner puts its tokens together from the right, while a gap is made of all the pieces that are
skipped from the left. So the pieces of a text are first gathered to gaps and tokens (`Laid`), which
is a statement about lists of characters. What it means for places in the source is then one more
induction (`Laid.account`), in which the characters in front are known.
-/

set_option autoImplicit false

namespace LineScript

/-- The quote in front of and behind the text of a kind of token. -/
def TokenKind.quotes : TokenKind → List Char
  | .charLiteral => ['\x27']
  | .dataLiteral => ['\x60']
  | .stringLiteral => ['\x22']
  | _ => []

namespace Token

open Pattern

/-! ## Gaps -/

/-- White space, and comments that go up to the end of their line. The end of the text may be such
an end of a line. -/
inductive Gap (atEnd : Prop) : List Char → Prop
  | nil : Gap atEnd []
  | space {c : Char} {rest : List Char} (hc : c = ' ' ∨ c = '\t' ∨ c = '\r' ∨ c = '\n')
      (hrest : Gap atEnd rest) : Gap atEnd (c :: rest)
  | comment {body rest : List Char} (hbody : '\n' ∉ body)
      (hline : rest.head? = some '\n' ∨ rest = [] ∧ atEnd) (hrest : Gap atEnd rest) :
      Gap atEnd ('/' :: '/' :: (body ++ rest))

variable {position : Nat} {text taken rest : List Char} {r : Scanned}

theorem Gap.blanks {atEnd : Prop} {gap : List Char} (h : ∀ c ∈ taken, isBlank c = true)
    (hgap : Gap atEnd gap) : Gap atEnd (taken ++ gap) := by
  induction taken with
  | nil => exact hgap
  | cons c rest ih =>
    obtain ⟨hc, hrest⟩ := List.forall_mem_cons.1 h
    refine .space ?_ (ih hrest)
    rcases isBlank_iff.1 hc with hc | hc | hc
    · exact Or.inl hc
    · exact Or.inr (Or.inl hc)
    · exact Or.inr (Or.inr (Or.inl hc))

/-- A text is a gap, then a token that is chosen there, and so on, up to the end of file. -/
inductive Laid : Nat → List Char → Scanned → Prop
  | last {position : Nat} {gap : List Char} (hgap : Gap True gap) :
      Laid position gap ⟨decide ('\n' ∈ gap), [Token.endOfFile (position + byteLength gap)]⟩
  | token {position : Nat} {gap taken rest : List Char} {kind : TokenKind} {r : Scanned}
      (hgap : Gap False gap) (hkind : kind ≠ .newline) (htaken : Chosen (some kind) taken rest)
      (hrest : Laid (position + byteLength gap + byteLength taken) rest r) :
      Laid position (gap ++ (taken ++ rest))
        ⟨decide ('\n' ∈ gap), ⟨kind, kept kind taken, r.newline,
          ⟨position + byteLength gap, position + byteLength gap + byteLength taken⟩⟩ :: r.tokens⟩

/-- No token starts with a newline. -/
theorem head?_ne_newline {kind : TokenKind} (hkind : kind ≠ .newline)
    (h : Chosen (some kind) taken rest) : taken.head? ≠ some '\n' := by
  intro hhead
  obtain ⟨tail, rfl⟩ := List.head?_eq_some_iff.1 hhead
  have hnewline := h.longest_eq
  rw [List.cons_append, longest_newline] at hnewline
  exact hkind (Option.some.inj (Match.mk.inj hnewline).1).symm

/-- What is skipped in front of a text becomes part of its first gap. -/
theorem Laid.skip {skipped : List Char} (h : Laid (position + byteLength skipped) text r)
    (hskipped : ∀ {atEnd : Prop} {gap : List Char}, Gap atEnd gap → (text = [] → gap = [] ∧ atEnd) →
      (text.head? = some '\n' → gap.head? = some '\n') → Gap atEnd (skipped ++ gap)) :
    Laid position (skipped ++ text) ⟨decide ('\n' ∈ skipped) || r.newline, r.tokens⟩ := by
  have hnewline : ∀ gap : List Char,
      (decide ('\n' ∈ skipped) || decide ('\n' ∈ gap)) = decide ('\n' ∈ skipped ++ gap) := by
    simp
  cases h with
  | last hgap =>
    rw [hnewline, Nat.add_assoc, ← byteLength_append]
    exact .last (hskipped hgap (fun h => ⟨h, trivial⟩) id)
  | @token _ gap taken rest kind r hgap hkind htaken hrest =>
    rw [hnewline, Nat.add_assoc position, ← byteLength_append, ← List.append_assoc]
    rw [Nat.add_assoc position, ← byteLength_append] at hrest
    refine .token (hskipped hgap ?_ ?_) hkind htaken hrest
    · intro hnil
      obtain ⟨_, htail⟩ := List.append_eq_nil_iff.1 hnil
      exact absurd (List.append_eq_nil_iff.1 htail).1 htaken.nonempty
    · intro hhead
      cases gap with
      | nil =>
        obtain ⟨c, tail, rfl⟩ := List.exists_cons_of_ne_nil htaken.nonempty
        exact (head?_ne_newline hkind htaken hhead).elim
      | cons c gap => exact hhead

/-- Behind a comment, its line ends. -/
theorem comment_line (h : Chosen none taken rest) (hcomment : taken ∈ commentText) :
    rest = [] ∨ rest.head? = some '\n' := by
  cases rest with
  | nil => exact Or.inl rfl
  | cons c rest =>
    refine Or.inr (Classical.byContradiction fun hc => ?_)
    obtain ⟨body, hbody, rfl⟩ := mem_commentText.1 hcomment
    have hlonger : '/' :: '/' :: (body ++ [c]) ∈ language none :=
      Or.inr (mem_commentText.2 ⟨body ++ [c], by
      simpa [hbody] using fun heq : '\n' = c => hc (heq ▸ rfl), rfl⟩)
    have hle := h.le ⟨rest, by simp⟩ hlonger
    simp only [List.length_cons, List.length_append] at hle
    omega

theorem attach_token {kind : TokenKind} (hkind : kind ≠ .newline) (taken : List Char)
    (position : Nat) (rest : Scanned) :
    attach (some kind) taken position rest = ⟨false, ⟨kind, kept kind taken, rest.newline,
      ⟨position, position + byteLength taken⟩⟩ :: rest.tokens⟩ := by
  unfold attach
  split
  · contradiction
  · rename_i heq
    exact absurd (Option.some.inj heq) hkind
  · rename_i heq
    rw [Option.some.inj heq]

/-- The pieces of a whole text are gaps and tokens. -/
theorem Cuts.laid {cuts : List Cut} {remains : List Char} (h : Cuts text cuts remains)
    (hall : remains = []) (position : Nat) : Laid position text (assemble position cuts) := by
  induction h generalizing position with
  | stop =>
    subst hall
    exact .last .nil
  | @cut kind text taken rest remains cuts htext hchosen hrest ih =>
    subst htext
    have hlaid := ih hall (position + byteLength taken)
    rw [assemble]
    rcases kind with _ | kind
    · rcases hchosen.mem with hblank | hcomment
      · have hblanks := (mem_blankText.1 hblank).2
        have hnewline : '\n' ∉ taken := fun hmem => absurd (hblanks '\n' hmem) (by decide)
        have hskip := hlaid.skip fun hgap _ _ => Gap.blanks hblanks hgap
        rwa [decide_eq_false hnewline] at hskip
      · have hline := comment_line hchosen hcomment
        obtain ⟨body, hbody, rfl⟩ := mem_commentText.1 hcomment
        have hskip :=
          hlaid.skip fun hgap hnil hhead => .comment hbody (hline.symm.imp hhead hnil) hgap
        rwa [decide_eq_false (by simpa using hbody)] at hskip
    · by_cases hkind : kind = .newline
      · subst hkind
        obtain rfl : taken = ['\n'] := hchosen.mem
        exact hlaid.skip fun hgap _ _ => .space (Or.inr (Or.inr (Or.inr rfl))) hgap
      · rw [attach_token hkind]
        exact .token .nil hkind hchosen hlaid

/-- A token keeps its text without the quotes. -/
theorem quotes_kept {kind : TokenKind} (h : taken ∈ language (some kind)) :
    kind.quotes ++ (kept kind taken).toList ++ kind.quotes = taken := by
  have hquoted : ∀ quote body, kind.isQuoted = true → kind.quotes = [quote] →
      taken = quote :: (body ++ [quote]) →
      kind.quotes ++ (kept kind taken).toList ++ kind.quotes = taken := by
    rintro quote body hkind hquotes rfl
    rw [hquotes, kept, if_pos hkind, String.toList_ofList, List.tail_cons, List.dropLast_concat]
    rfl
  cases kind with
  | charLiteral =>
    obtain ⟨body, _, heq⟩ := mem_quotedText.1 h
    exact hquoted '\x27' body rfl rfl heq
  | stringLiteral =>
    obtain ⟨body, _, heq⟩ := mem_quotedText.1 h
    exact hquoted '\x22' body rfl rfl heq
  | dataLiteral =>
    obtain ⟨body, _, heq⟩ := mem_rawText.1 h
    exact hquoted '\x60' body rfl rfl heq
  | _ => simp [TokenKind.quotes, kept, TokenKind.isQuoted]

/-! ## Places in the source -/

/-- The text between two places. -/
def gapText (source : String) (stop start : Nat) : List Char :=
  ((⟨stop, start⟩ : Span).slice source).toList

/-- From a place up to a token there is a gap, with a newline in it or not. -/
structure Follows (source : String) (stop : Nat) (newline : Bool) (t : Token) : Prop where
  gap : Gap (t.kind = .endOfFile) (gapText source stop t.span.start)
  newline_iff : newline = true ↔ '\n' ∈ gapText source stop t.span.start

/-- The token has the text of its place, and is what is chosen there. -/
def Placed (source : String) (t : Token) : Prop :=
  ∃ front taken behind, source.toList = front ++ taken ++ behind ∧
    t.span = ⟨byteLength front, byteLength front + byteLength taken⟩ ∧ t.kind ≠ .newline ∧
    Chosen (some t.kind) taken behind ∧ t.value = kept t.kind taken

/-- The tokens account for the source from a place on. -/
structure Account (source : String) (position : Nat) (r : Scanned) : Prop where
  closed :
      ∃ body, r.tokens = body ++ [Token.endOfFile source.utf8ByteSize] ∧ ∀ t ∈ body, Placed source t
  behind : ∀ t ∈ r.tokens, position ≤ t.span.start
  ordered : r.tokens.Pairwise fun a b => a.span.stop ≤ b.span.start
  first : ∀ t ∈ r.tokens.head?, Follows source position r.newline t
  next : r.tokens.IsChain fun a b => Follows source a.span.stop a.endsLine b

/-- The gap behind some characters. -/
theorem Gap.follows {source : String} {front gap back : List Char} {atEnd : Prop} {t : Token}
    (hsource : source.toList = front ++ gap ++ back) (hgap : Gap atEnd gap)
    (hend : atEnd ↔ t.kind = .endOfFile) (ht : t.span.start = byteLength front + byteLength gap) :
    Follows source (byteLength front) (decide ('\n' ∈ gap)) t := by
  have htext : gapText source (byteLength front) t.span.start = gap := by
    rw [gapText, ht, Span.slice_eq hsource, String.toList_ofList]
  refine ⟨?_, by rw [htext, decide_eq_true_iff]⟩
  rw [htext, ← propext hend]
  exact hgap

/-- Gaps and tokens of lists of characters are gaps and tokens of the source. -/
theorem Laid.account {source : String} {front : List Char} (h : Laid position text r)
    (hsource : source.toList = front ++ text) (hposition : position = byteLength front) :
    Account source position r := by
  induction h generalizing front with
  | @last position gap hgap =>
    subst hposition
    have hsize : byteLength front + byteLength gap = source.utf8ByteSize := by
      rw [← byteLength_toList, hsource, byteLength_append]
    have hfollows := Gap.follows (t := Token.endOfFile (byteLength front + byteLength gap))
      (by rw [hsource, List.append_nil]) hgap (by simp [Token.endOfFile]) rfl
    refine ⟨⟨[], by rw [hsize]; rfl, List.forall_mem_nil _⟩, ?_,
      List.pairwise_singleton _ _, ?_, .singleton _⟩
    · exact List.forall_mem_singleton.2 (Nat.le_add_right _ _)
    · rintro _ ⟨⟩
      exact hfollows
  | @token position gap taken rest kind r hgap hkind htaken hrest ih =>
    subst hposition
    have hplace : source.toList = (front ++ gap) ++ taken ++ rest := by
      simp only [hsource, List.append_assoc]
    obtain ⟨⟨body, hbody, hplaced⟩, hbehind, hordered, hfirst, hnext⟩ :=
      ih hplace (by simp only [byteLength_append])
    have hfollows := Gap.follows (t := ⟨kind, kept kind taken, r.newline,
        ⟨byteLength front + byteLength gap, byteLength front + byteLength gap + byteLength taken⟩⟩)
      (by rw [hsource, List.append_assoc]) hgap (iff_of_false id (htaken.kind_ne)) rfl
    refine ⟨⟨_ :: body, by rw [hbody, List.cons_append],
      List.forall_mem_cons.2 ⟨?_, hplaced⟩⟩, ?_, ?_, ?_, ?_⟩
    · exact ⟨front ++ gap, taken, rest, hplace, by rw [byteLength_append], hkind, htaken, rfl⟩
    · refine List.forall_mem_cons.2 ⟨Nat.le_add_right _ _, fun t ht => ?_⟩
      have hle := hbehind t ht
      omega
    · exact List.pairwise_cons.2 ⟨hbehind, hordered⟩
    · rintro _ ⟨⟩
      exact hfollows
    · exact List.isChain_cons.2 ⟨hfirst, hnext⟩

theorem account_of_scan {source : String} {tokens : List Token} (h : scan source = .ok tokens) :
    ∃ newline, Account source 0 ⟨newline, tokens⟩ := by
  obtain ⟨r, hr, rfl⟩ := scan_eq_ok_iff.1 h
  obtain ⟨cuts, hcuts, rfl⟩ := cuts_of_scanFrom hr
  exact ⟨_, (hcuts.laid rfl 0).account (List.nil_append _).symm rfl⟩

/-! ## What is known of a place -/

section Placed

variable {source : String} {t : Token}

theorem Placed.within (h : Placed source t) : t.span.Within source := by
  obtain ⟨front, taken, behind, hsource, hspan, _⟩ := h
  rw [hspan]
  exact Span.within_eq hsource

theorem Placed.lt (h : Placed source t) : t.span.start < t.span.stop := by
  obtain ⟨front, taken, behind, _, hspan, _, hchosen, _⟩ := h
  rw [hspan]
  exact Nat.lt_add_of_pos_right (byteLength_pos hchosen.nonempty)

theorem Placed.kind_ne (h : Placed source t) : t.kind ≠ .endOfFile ∧ t.kind ≠ .newline := by
  obtain ⟨front, taken, behind, _, _, hkind, hchosen, _⟩ := h
  exact ⟨hchosen.kind_ne, hkind⟩

theorem Placed.slice (h : Placed source t) :
    (t.span.slice source).toList = t.kind.quotes ++ t.value.toList ++ t.kind.quotes := by
  obtain ⟨front, taken, behind, hsource, hspan, _, hchosen, hvalue⟩ := h
  rw [hspan, Span.slice_eq hsource, String.toList_ofList, hvalue, quotes_kept hchosen.mem]

end Placed

/-- The tokens of a source, and between them white space and comments, are the whole source. -/
structure Lossless (source : String) (tokens : List Token) : Prop where
  /-- One end of file closes the list, at the end of the source. -/
  closed : ∃ body, tokens = body ++ [Token.endOfFile source.utf8ByteSize] ∧
    ∀ t ∈ body, t.kind ≠ .endOfFile ∧ t.kind ≠ .newline ∧ t.span.start < t.span.stop
  within : ∀ t ∈ tokens, t.span.Within source
  ordered : tokens.Pairwise fun a b => a.span.stop ≤ b.span.start
  text :
      ∀ t ∈ tokens, (t.span.slice source).toList = t.kind.quotes ++ t.value.toList ++ t.kind.quotes
  /-- In front of the first token there is a gap. -/
  first : ∀ t ∈ tokens.head?, Gap (t.kind = .endOfFile) (gapText source 0 t.span.start)
  /-- Between a token and the next there is a gap, and the mark says whether a newline is in it. -/
  next :
      tokens.IsChain fun a b =>
        Gap (b.kind = .endOfFile) (gapText source a.span.stop b.span.start) ∧
          (a.endsLine = true ↔ '\n' ∈ gapText source a.span.stop b.span.start)

/-- **Scanning is lossless.** -/
theorem scan_lossless {source : String} {tokens : List Token} (h : scan source = .ok tokens) :
    Lossless source tokens := by
  obtain ⟨newline, ⟨body, rfl, hplaced⟩, _, hordered, hfirst, hnext⟩ := account_of_scan h
  refine ⟨⟨body, rfl, fun t ht => ?_⟩, ?_, hordered, ?_, fun t ht => (hfirst t ht).gap, ?_⟩
  · obtain ⟨hend, hnewline⟩ := (hplaced t ht).kind_ne
    exact ⟨hend, hnewline, (hplaced t ht).lt⟩
  · exact List.forall_mem_append.2
      ⟨fun t ht => (hplaced t ht).within, List.forall_mem_singleton.2 (Span.within_end source)⟩
  · refine List.forall_mem_append.2 ⟨fun t ht => (hplaced t ht).slice,
      List.forall_mem_singleton.2 ?_⟩
    have hslice := @Span.slice_eq source source.toList [] [] (by simp)
    rw [byteLength_toList] at hslice
    exact congrArg String.toList hslice
  · exact hnext.imp fun _ _ hfollows => ⟨hfollows.gap, hfollows.newline_iff⟩

set_option maxRecDepth 8192 in
/-- A char literal with a character of two bytes in it, a comment with a quote, and a literal over
two lines. -/
theorem scan_lossless_quotes :
    scan "\tx='é'//'\n\n`\n`" = .ok [⟨.identifier, "x", false, ⟨1, 2⟩⟩,
      ⟨.assign, "=", false, ⟨2, 3⟩⟩, ⟨.charLiteral, "é", true, ⟨3, 7⟩⟩,
      ⟨.dataLiteral, "\n", false, ⟨12, 15⟩⟩, ⟨.endOfFile, "", true, ⟨15, 15⟩⟩] ∧
      Lossless "\tx='é'//'\n\n`\n`" [⟨.identifier, "x", false, ⟨1, 2⟩⟩,
        ⟨.assign, "=", false, ⟨2, 3⟩⟩, ⟨.charLiteral, "é", true, ⟨3, 7⟩⟩,
        ⟨.dataLiteral, "\n", false, ⟨12, 15⟩⟩, ⟨.endOfFile, "", true, ⟨15, 15⟩⟩] :=
  ⟨by with_unfolding_all rfl, scan_lossless (by with_unfolding_all rfl)⟩

end Token

end LineScript
