import LineScript.Proofs.Grammar.Places
import LineScript.Proofs.Grammar.Statements
import LineScript.Proofs.Token.Lines

/-!
# Sources compose line by line

Two sources that can be read on their own can be read one behind the other, with a newline between
them: the program has the statements of the first and then those of the second, and the same
literals are faulty.

The scanner gives the tokens of both (`Token.scan_append`); what is left is that a statement does
not depend on the tokens around it. No expression ends with a terminal that asks for the token
behind it, and none starts with one that asks for the token in front. So the tokens of a statement
may be moved to another place, and whether its last token ends the line matters only for the end of
the statement (`Spells.moved`). The newline between the sources makes sure of that end.
-/

set_option autoImplicit false

namespace LineScript

open TokenStream

/-! ## The last token of an expression -/

/-- What an expression can end with. -/
def Terminal.ends : Terminal → Bool
  | .literal _ => true
  | .name _ => true
  | .sign _ => true
  | _ => false

theorem Terminal.isWritten_of_ends {terminal : Terminal} (h : terminal.ends = true) :
    terminal.isWritten = true := by
  cases terminal with
  | trailingComma => cases h
  | _ => rfl

theorem Terminal.joinsBehind_of_ends {terminal : Terminal} (h : terminal.ends = true) :
    terminal.joinsBehind = false := by
  cases terminal with
  | operator => cases h
  | _ => rfl

theorem Terminal.joinsBefore_of_starts {terminal : Terminal} (h : terminal.starts = true) :
    terminal.joinsBefore = false := by
  cases terminal with
  | operator => cases h
  | attached => cases h
  | _ => rfl

/-- What is written of an expression ends with a token that does not ask the next one to be on its
line. -/
theorem Expr.yield_ends (e : Expr) :
    ∃ front last, e.yield = front ++ [last] ∧ last.ends = true := by
  induction e using Expr.induct with
  | literal value => exact ⟨[], .literal value, rfl, rfl⟩
  | ident name => exact ⟨[], .name name, rfl, rfl⟩
  | unary op operand ih =>
    obtain ⟨front, last, hoperand, hlast⟩ := ih
    exact ⟨.sign op.token :: front, last, by rw [yield, hoperand, List.cons_append], hlast⟩
  | binary left op right _ ihr =>
    obtain ⟨front, last, hright, hlast⟩ := ihr
    exact ⟨left.yield ++ .operator op :: front, last,
      by rw [yield, hright, List.append_assoc, List.cons_append], hlast⟩
  | _ => exact ⟨_, _, rfl, rfl⟩

/-! ## Tokens that are moved -/

/-- The tokens from one offset up to another stand in the second list as well, `places` offsets and
`bytes` bytes further on. Only the last of them may end a line there and not here, or the other way
round. -/
def Moved (tokens tokens' : List Token) (places bytes n m : Nat) : Prop :=
  ∀ j t, n ≤ j → j < m → tokens[j]? = some t →
    ∃ u, tokens'[places + j]? = some u ∧ u.kind = t.kind ∧
      u.value = t.value ∧ u.span = t.span.shift bytes ∧ (j + 1 < m → u.endsLine = t.endsLine)

variable {tokens tokens' : List Token} {places bytes n m k : Nat}

theorem Moved.mono {n' m' : Nat} (h : Moved tokens tokens' places bytes n m) (hn : n ≤ n')
    (hm : m' ≤ m) : Moved tokens tokens' places bytes n' m' := by
  intro j t hj hlt ht
  obtain ⟨u, hu, hkind, hvalue, hspan, hline⟩ := h j t (by omega) (by omega) ht
  exact ⟨u, hu, hkind, hvalue, hspan, fun hj => hline (by omega)⟩

theorem Terminal.Fits.congr {terminal : Terminal} {t u : Token} (h : terminal.Fits t)
    (hkind : u.kind = t.kind) (hvalue : u.value = t.value) : terminal.Fits u := by
  cases terminal with
  | literal value =>
    obtain ⟨denoted, hdenoted, rfl⟩ := h
    exact ⟨_, (Token.denoted?_congr hkind hvalue).trans (congrArg _ hdenoted), rfl⟩
  | name text => exact ⟨hkind.trans h.1, hvalue.trans h.2⟩
  | _ => exact hkind.trans h

theorem ends_of_cons {first : Terminal} {rest : List Terminal}
    (h : ∀ last ∈ (first :: rest).getLast?, last.ends = true) :
    ∀ last ∈ rest.getLast?, last.ends = true := by
  intro last hmem
  refine h last ?_
  rw [Option.mem_def] at hmem ⊢
  rw [List.getLast?_cons, hmem]
  rfl

/-- Something is written of terminals that end so, so they take up at least one token. -/
theorem Spells.lt_of_ends {terminals : List Terminal} (h : Spells tokens terminals n m)
    (hne : terminals ≠ []) (hlast : ∀ last ∈ terminals.getLast?, last.ends = true) : n < m := by
  obtain ⟨front, last, rfl⟩ := List.eq_nil_or_concat terminals |>.resolve_left hne
  rw [List.concat_eq_append] at h hlast
  have hends : last.ends = true := hlast last (by simp)
  obtain ⟨k, hfront, _, rfl⟩ := h.unsnoc (Terminal.isWritten_of_ends hends)
  exact Nat.lt_succ_of_le hfront.le

/-- Terminals are spelled by moved tokens, if the first does not ask for the token in front of all
and the last not for the one behind. -/
theorem Spells.moved_terminals {terminals : List Terminal} {lo : Nat}
    (h : Spells tokens terminals n m) (hmoved : Moved tokens tokens' places bytes lo m)
    (hlo : lo ≤ n) (hfirst : n = lo → ∀ first ∈ terminals.head?, first.starts = true)
    (hlast : ∀ last ∈ terminals.getLast?, last.ends = true) :
    Spells tokens' terminals (places + n) (places + m) := by
  induction h with
  | nil => exact .nil
  | @cons n m t first rest ht hend hfits hbefore hbehind hrest ih =>
    have hle := hrest.le
    have hlast' := ends_of_cons hlast
    obtain ⟨u, hu, hkind, hvalue, _, hline⟩ := hmoved n t hlo (by omega) ht
    refine .cons hu (hkind ▸ hend) (hfits.congr hkind hvalue) ?_ ?_
      (ih hmoved (by omega) (by omega) hlast')
    · intro hjoins k v hk hv
      -- The first of all does not ask for the token in front.
      have hne : n ≠ lo := by
        intro heq
        rw [Terminal.joinsBefore_of_starts (hfirst heq first rfl)] at hjoins
        cases hjoins
      obtain ⟨j, rfl⟩ := Nat.exists_eq_succ_of_ne_zero (show n ≠ 0 by omega)
      obtain rfl : places + j = k := by omega
      have hw := List.getElem?_eq_getElem (Nat.lt_of_succ_lt (List.getElem?_eq_some_iff.1 ht).1)
      obtain ⟨v', hv', _, _, _, hline'⟩ := hmoved j _ (by omega) (by omega) hw
      obtain rfl := Option.some.inj (hv'.symm.trans hv)
      rw [hline' (by omega)]
      exact hbefore hjoins j _ rfl hw
    · intro hjoins
      have hne : rest ≠ [] := by
        rintro rfl
        rw [Terminal.joinsBehind_of_ends (hlast first rfl)] at hjoins
        cases hjoins
      rw [hline (hrest.lt_of_ends hne hlast')]
      exact hbehind hjoins
  | @missing n m rest hrest ih =>
    have hlast' := ends_of_cons hlast
    refine .missing (ih hmoved hlo (fun heq => ?_) hlast')
    cases hfirst heq _ rfl

/-- The tokens of an expression may stand anywhere. -/
theorem Spells.moved {e : Expr} (h : Spells tokens e.yield n m)
    (hmoved : Moved tokens tokens' places bytes n m) :
    Spells tokens' e.yield (places + n) (places + m) := by
  refine h.moved_terminals hmoved (Nat.le_refl n) (fun _ first hmem => ?_) fun last hmem => ?_
  · obtain ⟨first', rest, hyield, hstarts⟩ := e.yield_starts
    rw [hyield] at hmem
    obtain rfl := Option.some.inj hmem
    exact hstarts
  · obtain ⟨front, last', hyield, hends⟩ := e.yield_ends
    rw [hyield, List.getLast?_concat] at hmem
    obtain rfl := Option.some.inj hmem
    exact hends

/-! ## Lines that are moved -/

/-- The statement `bytes` bytes further on. -/
def Statement.shift (bytes : Nat) (st : Statement) : Statement :=
  { st with span := st.span.shift bytes }

theorem Span.merge_shift (bytes : Nat) (a b : Span) :
    (a.shift bytes).merge (b.shift bytes) = (a.merge b).shift bytes := by
  simp only [merge, shift, Nat.add_min_add_right, Nat.add_max_add_right]

/-- The token of the stream that was moved. -/
theorem Moved.token (h : Moved tokens tokens' places bytes n m) {j : Nat} (hn : n ≤ j) (hm : j < m)
    (hlt : j < tokens.length) :
    ((ofList tokens').token (places + j)).span = ((ofList tokens).token j).span.shift bytes ∧
      (j + 1 < m → (ofList tokens').lineEndsBefore (places + (j + 1)) =
        (ofList tokens).lineEndsBefore (j + 1)) := by
  have ht := List.getElem?_eq_getElem hlt
  obtain ⟨u, hu, _, _, hspan, hline⟩ := h j _ hn hm ht
  rw [← Nat.add_assoc, lineEndsBefore, lineEndsBefore, token_of_getElem? hu, token_of_getElem? ht]
  exact ⟨hspan, hline⟩

/-- The lines of a program may stand anywhere, if the last still ends there. -/
theorem Lines.moved {p : Program} (h : Lines tokens p n m)
    (hmoved : Moved tokens tokens' places bytes n m)
    (hend : n < m →
      (ofList tokens').lineEndsBefore (places + m) = true ∨
      (ofList tokens').kind (places + m) = .endOfFile) :
    Lines tokens' (p.map (Statement.shift bytes)) (places + n) (places + m) := by
  induction h with
  | nil => exact .nil
  | @cons n k m e rest he hspells hends hrest ih =>
    have hlt := hspells.lt
    have hlength := hspells.le_length hlt
    have hle := hrest.spells.le
    obtain ⟨j, rfl⟩ := Nat.exists_eq_succ_of_ne_zero (Nat.ne_zero_of_lt hlt)
    have hspan : (ofList tokens').spanTo (places + n) (places + (j + 1)) =
        ((ofList tokens).spanTo n (j + 1)).shift bytes := by
      rw [spanTo, spanTo, ← Nat.add_assoc, Nat.add_sub_cancel, Nat.add_sub_cancel,
        ← Span.merge_shift, (hmoved.token (Nat.le_refl n) (by omega) (by omega)).1,
        (hmoved.token (by omega) (by omega) (by omega)).1]
    rw [List.map_cons, Statement.shift, ← hspan]
    refine .cons he (hspells.moved (hmoved.mono (Nat.le_refl n) hle)) ?_
      (ih (hmoved.mono (Nat.le_of_lt hlt) (Nat.le_refl m)) fun hopen => hend (by omega))
    rcases Nat.eq_or_lt_of_le hle with rfl | hopen
    · exact hend hlt
    · -- In front of other lines, the end of this one is moved with it.
      rcases hends with hline | hfile
      · rw [(hmoved.token (by omega) (by omega) (by omega)).2 hopen]
        exact Or.inl hline
      · obtain ⟨t, ht, hkind⟩ := hrest.spells.token (Nat.le_refl _) hopen
        rw [kind, token_of_getElem? ht] at hfile
        exact absurd hfile hkind

/-! ## Faulty literals that are moved -/

namespace LiteralError

/-- The faulty literal `bytes` bytes further on. -/
def shift (bytes : Nat) (e : LiteralError) : LiteralError := { e with token := e.token.shift bytes }

/-- The faulty literal without the mark of a line end behind it. -/
def unmarked (e : LiteralError) : LiteralError :=
  { e with token := { e.token with endsLine := false } }

/-- The mark is nothing that is reported. -/
theorem report_unmarked (e : LiteralError) :
    e.unmarked.span = e.span ∧ e.unmarked.code = e.code ∧ e.unmarked.message = e.message :=
  ⟨rfl, rfl, rfl⟩

end LiteralError

/-- Faults depend on kind and value of a token and on nothing else of it. -/
theorem Token.faults_congr {t u : Token} (hkind : u.kind = t.kind) (hvalue : u.value = t.value) :
    u.faults = t.faults.map fun e => ⟨u, e.fault⟩ := by
  rw [faults, faults, denoted?_congr hkind hvalue]
  cases t.denoted? <;> rfl

theorem Token.token_of_mem_faults {t : Token} {e : LiteralError}
    (h : e ∈ t.faults) : e.token = t := by
  rw [faults_congr rfl rfl] at h
  obtain ⟨_, _, rfl⟩ := List.mem_map.1 h
  rfl

theorem Token.faults_shift (bytes : Nat) (t : Token) :
    (t.shift bytes).faults = t.faults.map (LiteralError.shift bytes) := by
  rw [faults_congr (t := t) (u := t.shift bytes) rfl rfl]
  refine List.map_congr_left fun e he => ?_
  rw [LiteralError.shift, token_of_mem_faults he]

theorem faults_shift (bytes : Nat) (body : List Token) :
    (body.map (Token.shift bytes)).flatMap Token.faults =
      (body.flatMap Token.faults).map (LiteralError.shift bytes) := by
  rw [List.flatMap_map, List.map_flatMap]
  simp only [Token.faults_shift]

theorem faults_endLine (body : List Token) :
    ((Token.endLine body).flatMap Token.faults).map LiteralError.unmarked =
      (body.flatMap Token.faults).map LiteralError.unmarked := by
  rcases List.eq_nil_or_concat body with rfl | ⟨front, last, rfl⟩
  · rfl
  · have hlast : ({ last with endsLine := true } : Token).faults.map LiteralError.unmarked =
        last.faults.map LiteralError.unmarked := by
      rw [Token.faults_congr (t := last) (u := { last with endsLine := true }) rfl rfl,
        List.map_map]
      refine List.map_congr_left fun e he => ?_
      rw [Function.comp_apply, LiteralError.unmarked, LiteralError.unmarked,
        Token.token_of_mem_faults he]
    rw [List.concat_eq_append, Token.endLine_concat, List.flatMap_append, List.flatMap_append,
      List.flatMap_singleton, List.flatMap_singleton, List.map_append, List.map_append, hlast]

/-! ## Two lists of tokens, one behind the other -/

variable {body body' : List Token} {closing closing' : Token}

theorem Token.length_endLine (body : List Token) : (endLine body).length = body.length := by
  rcases List.eq_nil_or_concat body with rfl | ⟨front, last, rfl⟩
  · rfl
  · rw [List.concat_eq_append, endLine_concat, List.length_append, List.length_append]
    rfl

/-- The tokens in front stay where they are. -/
theorem moved_endLine (body more : List Token) (closing : Token) :
    Moved (body ++ [closing]) (Token.endLine body ++ more) 0 0 0 body.length := by
  intro j t _ hlt ht
  rw [List.getElem?_append_left hlt] at ht
  rw [Nat.zero_add, List.getElem?_append_left (by rwa [Token.length_endLine])]
  rcases List.eq_nil_or_concat body with rfl | ⟨front, last, rfl⟩
  · cases ht
  · rw [List.concat_eq_append] at ht hlt ⊢
    rw [Token.endLine_concat]
    rw [List.length_append, List.length_singleton] at hlt ⊢
    by_cases hj : j < front.length
    · rw [List.getElem?_append_left hj] at ht ⊢
      exact ⟨t, ht, rfl, rfl, rfl, fun _ => rfl⟩
    · obtain rfl : j = front.length := by omega
      rw [List.getElem?_concat_length] at ht ⊢
      obtain rfl := Option.some.inj ht
      exact ⟨_, rfl, rfl, rfl, rfl, fun hlast => absurd hlast (by omega)⟩

/-- The tokens behind them move by their number. -/
theorem moved_shift (front tokens : List Token) (bytes n m : Nat) :
    Moved tokens (front ++ tokens.map (Token.shift bytes)) front.length bytes n m := by
  intro j t _ _ ht
  refine ⟨t.shift bytes, ?_, rfl, rfl, rfl, fun _ => rfl⟩
  rw [List.getElem?_append_right (Nat.le_add_right _ _), Nat.add_sub_cancel_left,
    List.getElem?_map, ht]
  rfl

theorem lineEndsBefore_endLine (more : List Token) (hne : body ≠ []) :
    (ofList (Token.endLine body ++ more)).lineEndsBefore body.length = true := by
  rcases List.eq_nil_or_concat body with rfl | ⟨front, last, rfl⟩
  · exact absurd rfl hne
  · have htoken : (front ++ [{ last with endsLine := true }] ++ more)[front.length]? =
        some { last with endsLine := true } := by
      simp
    rw [List.concat_eq_append, Token.endLine_concat, List.length_append, List.length_singleton,
      lineEndsBefore, token_of_getElem? htoken]

/-- Two programs that are read from their tokens are read from the tokens of both on lines of their
own. -/
theorem Program.ofTokens_append {p p' : Program} (bytes : Nat)
    (hclosing' : closing'.kind = .endOfFile) (h : Lines (body ++ [closing]) p 0 body.length)
    (h' : Lines (body' ++ [closing']) p' 0 body'.length) :
    Program.ofTokens (Token.endLine body ++ (body' ++ [closing']).map (Token.shift bytes)) =
      ⟨(Token.endLine body ++ body'.map (Token.shift bytes)).flatMap Token.faults,
        .ok (p ++ p'.map (Statement.shift bytes))⟩ := by
  have hlength : (Token.endLine body ++ body'.map (Token.shift bytes)).length =
      (Token.endLine body).length + body'.length := by
    rw [List.length_append, List.length_map]
  have htokens : Token.endLine body ++ (body' ++ [closing']).map (Token.shift bytes) =
      (Token.endLine body ++ body'.map (Token.shift bytes)) ++ [closing'.shift bytes] := by
    rw [List.map_append, ← List.append_assoc]
    rfl
  have hfile : (ofList ((Token.endLine body ++ body'.map (Token.shift bytes)) ++
      [closing'.shift bytes])).kind ((Token.endLine body).length + body'.length) = .endOfFile :=
    hlength ▸ kind_length hclosing'
  -- The newline ends the last line of the first, the end of file that of the second.
  have hfirst := h.moved
    (moved_endLine body ((body' ++ [closing']).map (Token.shift bytes)) closing) fun hopen =>
    Or.inl (by rw [Nat.zero_add]; exact lineEndsBefore_endLine _ (List.ne_nil_of_length_pos hopen))
  have hsecond :=
    h'.moved (moved_shift (Token.endLine body) (body' ++ [closing']) bytes 0 body'.length) fun _ =>
    Or.inr (htokens ▸ hfile)
  rw [Nat.zero_add, Nat.zero_add, ← Token.length_endLine body] at hfirst
  rw [Nat.add_zero] at hsecond
  have hlines := hfirst.append hsecond
  have hmoved : p.map (Statement.shift 0) = p := List.map_id p
  rw [hmoved, htokens, ← hlength] at hlines
  rw [htokens]
  exact Program.ofTokens_of_lines hclosing' hlines

/-- **Sources compose line by line.** If two sources are scanned and read, so is the text of both
with a newline between them. Its statements are those of the first, and those of the second as many
bytes further on as the first and the newline have; its faulty literals are those of the first and,
as far on, those of the second. -/
theorem Program.sources_compose {first second : String} {tokens tokens' : List Token}
    {p p' : Program} (hscan : Token.scan first = .ok tokens)
    (hread : (Program.ofTokens tokens).outcome = .ok p) (hscan' : Token.scan second = .ok tokens')
    (hread' : (Program.ofTokens tokens').outcome = .ok p') :
    ∃ joined, Token.scan (first ++ "\n" ++ second) = .ok joined ∧
      (Program.ofTokens joined).outcome =
        .ok (p ++ p'.map (Statement.shift (byteLength first.toList + 1))) ∧
      (Program.ofTokens joined).errors.map LiteralError.unmarked =
        ((Program.ofTokens tokens).errors ++ (Program.ofTokens tokens').errors.map
          (LiteralError.shift (byteLength first.toList + 1))).map LiteralError.unmarked := by
  refine ⟨_, Token.scan_append hscan hscan', ?_⟩
  obtain ⟨body, closing, rfl, hclosing, hbody⟩ := Token.scan_tokens hscan
  obtain ⟨body', closing', rfl, hclosing', hbody'⟩ := Token.scan_tokens hscan'
  have hlines := Program.lines_of_ofTokens hclosing hbody hread
  have hlines' := Program.lines_of_ofTokens hclosing' hbody' hread'
  rw [List.dropLast_concat, Program.ofTokens_append _ hclosing' hlines hlines',
    Program.ofTokens_of_lines hclosing hlines, Program.ofTokens_of_lines hclosing' hlines']
  refine ⟨rfl, ?_⟩
  rw [List.flatMap_append, List.map_append, List.map_append, faults_endLine, faults_shift]

set_option maxRecDepth 8192 in
/-- A name at the end of the first source, in front of a comment, gets no key and no subtraction
from the second, and both have a faulty literal. -/
theorem Program.sources_compose_nameBeforeBracket :
    ∃ joined, Token.scan ("a = \"\\q\"\ny // c" ++ "\n" ++ "[1]\n-'zz'") = .ok joined ∧
      (Program.ofTokens joined).outcome = .ok
        [⟨.binary (.ident "a") .assign (.literal (.string "q")), ⟨0, 8⟩⟩, ⟨.ident "y", ⟨9, 10⟩⟩,
          ⟨.array [.literal (.number ⟨1, 0⟩)], ⟨16, 19⟩⟩,
          ⟨.unary .negate (.literal (.char 'z')), ⟨20, 25⟩⟩] ∧
      (Program.ofTokens joined).errors.map (fun e => (e.fault, e.span)) =
        [(.invalidEscape 'q', ⟨4, 8⟩), (.charLength, ⟨21, 25⟩)] := by
  have hscan : Token.scan "a = \"\\q\"\ny // c" = .ok [⟨.identifier, "a", false, ⟨0, 1⟩⟩,
      ⟨.assign, "=", false, ⟨2, 3⟩⟩, ⟨.stringLiteral, "\\q", true, ⟨4, 8⟩⟩,
      ⟨.identifier, "y", false, ⟨9, 10⟩⟩, ⟨.endOfFile, "", true, ⟨15, 15⟩⟩] := by
    with_unfolding_all rfl
  have hscan' : Token.scan "[1]\n-'zz'" = .ok [⟨.bracketOpen, "[", false, ⟨0, 1⟩⟩,
      ⟨.numberLiteral, "1", false, ⟨1, 2⟩⟩,
      ⟨.bracketClose, "]", true, ⟨2, 3⟩⟩, ⟨.minus, "-", false, ⟨4, 5⟩⟩,
      ⟨.charLiteral, "zz", false, ⟨5, 9⟩⟩, ⟨.endOfFile, "", true, ⟨9, 9⟩⟩] := by
    with_unfolding_all rfl
  obtain ⟨joined, hjoined, hread, herrors⟩ :=
    sources_compose hscan (by with_unfolding_all rfl) hscan' (by with_unfolding_all rfl)
  refine ⟨joined, hjoined, hread.trans (by with_unfolding_all rfl), ?_⟩
  have hreports := congrArg (List.map fun e => (e.fault, e.span)) herrors
  rw [List.map_map, List.map_map] at hreports
  exact hreports.trans (by with_unfolding_all rfl)

end LineScript
