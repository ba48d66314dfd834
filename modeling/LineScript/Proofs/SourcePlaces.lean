import LineScript.Proofs.Grammar.Places
import LineScript.Proofs.Grammar.Statements
import LineScript.Proofs.LosslessScan
import LineScript.Proofs.Text.Position
import LineScript.Report.Diagnostic

/-!
# Places are inside the source

Whatever is wrong with a source, the places that are reported are places in it: they start and end
between its characters, and not behind its end. So the line of a label can be shown, and the label
starts on it (`Source.places_inside`). The places of statements are in the order of the program, and
each is as long as its tokens.

The scanner reports the place of what it could not read. Every other place is made of the places of
tokens, which are inside the source since scanning is lossless; that nothing else is ever reported
is what the relation `Span.Inside` says when it is carried along (`Source.run_alike`).
-/

set_option autoImplicit false

namespace LineScript

open TokenStream

/-! ## The order of tokens -/

/-- Tokens that stand one behind the other. -/
structure Token.Ordered (tokens : List Token) : Prop where
  ordered : tokens.Pairwise fun a b => a.span.stop ≤ b.span.start
  le : ∀ t ∈ tokens, t.span.start ≤ t.span.stop
  lt : ∀ t ∈ tokens, t.kind ≠ .endOfFile → t.span.start < t.span.stop

section Ordered

variable {tokens : List Token} {first last : Token} {n m k : Nat} {p : Program}

theorem Token.ordered_of_scan {source : String} (h : Token.scan source = .ok tokens) :
    Token.Ordered tokens := by
  obtain ⟨_, ⟨body, rfl, hplaced⟩, _, hordered, _⟩ := Token.account_of_scan h
  refine ⟨hordered, ?_, ?_⟩
  · exact List.forall_mem_append.2
      ⟨fun t ht => Nat.le_of_lt (hplaced t ht).lt, List.forall_mem_singleton.2 (Nat.le_refl _)⟩
  · exact List.forall_mem_append.2
      ⟨fun t ht _ => (hplaced t ht).lt, List.forall_mem_singleton.2 fun hkind => absurd rfl hkind⟩

theorem Token.Ordered.stop_le_start (h : Token.Ordered tokens) (hfirst : tokens[n]? = some first)
    (hlast : tokens[k]? = some last) (hlt : n < k) : first.span.stop ≤ last.span.start := by
  obtain ⟨hn, rfl⟩ := List.getElem?_eq_some_iff.1 hfirst
  obtain ⟨hk, rfl⟩ := List.getElem?_eq_some_iff.1 hlast
  exact List.pairwise_iff_getElem.1 h.ordered n k hn hk hlt

/-- From a token to itself or one behind it. -/
theorem Token.Ordered.merge_eq (h : Token.Ordered tokens) (hfirst : tokens[n]? = some first)
    (hlast : tokens[k]? = some last) (hle : n ≤ k) :
    first.span.merge last.span = ⟨first.span.start, last.span.stop⟩ ∧
      first.span.stop ≤ last.span.stop := by
  have hstart := h.le first (List.mem_of_getElem? hfirst)
  have hstop := h.le last (List.mem_of_getElem? hlast)
  have hmono : first.span.start ≤ last.span.start ∧ first.span.stop ≤ last.span.stop := by
    rcases Nat.eq_or_lt_of_le hle with rfl | hlt
    · obtain rfl := Option.some.inj (hfirst.symm.trans hlast)
      exact ⟨Nat.le_refl _, Nat.le_refl _⟩
    · have hnext := h.stop_le_start hfirst hlast hlt
      omega
  rw [Span.merge, Nat.min_eq_left hmono.1, Nat.max_eq_right hmono.2]
  exact ⟨rfl, hmono.2⟩

/-! ## The places of statements -/

/-- The tokens from one offset up to another spell the statements, one behind the other, and each
statement has the place from the start of its first token to the end of its last. -/
inductive Spread (tokens : List Token) : Program → Nat → Nat → Prop
  | nil {n : Nat} : Spread tokens [] n n
  | cons {n k m : Nat} {first last : Token} {st : Statement} {rest : Program}
      (hspells : Spells tokens st.expr.yield n (k + 1)) (hfirst : tokens[n]? = some first)
      (hlast : tokens[k]? = some last) (hspan : st.span = ⟨first.span.start, last.span.stop⟩)
      (hrest : Spread tokens rest (k + 1) m) : Spread tokens (st :: rest) n m

theorem Lines.spread (h : Lines tokens p n m) (hordered : Token.Ordered tokens) :
    Spread tokens p n m := by
  induction h with
  | nil => exact .nil
  | @cons n k m e rest _ hspells _ _ ih =>
    -- A statement takes at least one token, so it has a last one.
    have hlt := hspells.lt
    obtain ⟨k, rfl⟩ := Nat.exists_eq_succ_of_ne_zero (Nat.ne_zero_of_lt hlt)
    obtain ⟨first, hfirst, _⟩ := hspells.token (Nat.le_refl n) hlt
    obtain ⟨last, hlast, _⟩ := hspells.token (Nat.le_of_lt_succ hlt) (Nat.lt_succ_self k)
    refine .cons hspells hfirst hlast ?_ ih
    rw [spanTo, token_of_getElem? hfirst, Nat.succ_sub_one, token_of_getElem? hlast]
    exact (hordered.merge_eq hfirst hlast (Nat.le_of_lt_succ hlt)).1

/-- Statements start with tokens from the first offset on. -/
theorem Spread.start (h : Spread tokens p n m) {st : Statement} (hst : st ∈ p) :
    ∃ j first, n ≤ j ∧ tokens[j]? = some first ∧ st.span.start = first.span.start := by
  induction h with
  | nil => cases hst
  | @cons n k m first last st' rest hspells hfirst _ hspan _ ih =>
    rcases List.mem_cons.1 hst with rfl | hst
    · exact ⟨n, first, Nat.le_refl n, hfirst, by rw [hspan]⟩
    · obtain ⟨j, t, hle, ht, hstart⟩ := ih hst
      exact ⟨j, t, (Nat.le_of_lt hspells.lt).trans hle, ht, hstart⟩

/-- The places of a program: none is empty, they are disjoint and in order, and each is that of its
tokens. -/
structure Program.Located (tokens : List Token) (p : Program) : Prop where
  nonempty : ∀ st ∈ p, st.span.start < st.span.stop
  ordered : p.Pairwise fun s t => s.span.stop ≤ t.span.start
  spread : Spread tokens p 0 (tokens.length - 1)

theorem Spread.nonempty (h : Spread tokens p n m) (hordered : Token.Ordered tokens) :
    ∀ st ∈ p, st.span.start < st.span.stop := by
  induction h with
  | nil => exact List.forall_mem_nil _
  | @cons n k m first last st rest hspells hfirst hlast hspan _ ih =>
    refine List.forall_mem_cons.2 ⟨?_, ih⟩
    have hlt := hspells.lt
    obtain ⟨t, ht, hkind⟩ := hspells.token (Nat.le_refl n) hlt
    obtain rfl := Option.some.inj (hfirst.symm.trans ht)
    have hfull := hordered.lt first (List.mem_of_getElem? hfirst) hkind
    have hmono := (hordered.merge_eq hfirst hlast (Nat.le_of_lt_succ hlt)).2
    rw [hspan]
    exact Nat.lt_of_lt_of_le hfull hmono

theorem Spread.ordered (h : Spread tokens p n m) (hordered : Token.Ordered tokens) :
    p.Pairwise fun s t => s.span.stop ≤ t.span.start := by
  induction h with
  | nil => exact .nil
  | @cons n k m first last st rest _ _ hlast hspan hrest ih =>
    refine List.pairwise_cons.2 ⟨fun t ht => ?_, ih⟩
    obtain ⟨j, next, hle, hnext, hstart⟩ := hrest.start ht
    rw [hspan, hstart]
    exact hordered.stop_le_start hlast hnext hle

end Ordered

/-! ## Places inside the source -/

/-- The same place, inside the source. -/
def Span.Inside (source : String) (a b : Span) : Prop := a = b ∧ a.Within source

theorem Span.inside_carried (source : String) : Span.Carried (Span.Inside source) where
  point h := ⟨by rw [h.1], h.2.point⟩
  merge h h' := ⟨by rw [h.1, h'.1], h.2.merge h'.2⟩

section Inside

variable {source : String} {tokens : List Token} {e f : SourceError}

/-- The tokens of a source are themselves, inside the source. -/
theorem Token.inside_of_scan (h : Token.scan source = .ok tokens) :
    Token.ListAlike (Span.Inside source) tokens tokens := by
  obtain ⟨_, ⟨body, rfl, hplaced⟩, _⟩ := Token.account_of_scan h
  refine .closed (List.forall₂_same.2 fun t ht => ⟨rfl, rfl, rfl, rfl, (hplaced t ht).within⟩) ?_
    rfl
  exact ⟨rfl, rfl, rfl, rfl, Span.within_end source⟩

/-- Behind the scanner, errors have labels inside the source. -/
theorem SourceError.Alike.labels (h : SourceError.Alike (Span.Inside source) e f) :
    ∀ d ∈ e.diagnostics, ∀ label ∈ d.labels, label.span.Within source := by
  cases h with
  | parse h => exact List.forall_mem_singleton.2 (List.forall_mem_singleton.2 h.span.2)
  | literals h =>
    have hwithin := ((List.forall₂_and_left (p := fun e => e.span.Within source) _ _).1
      (h.imp fun _ _ hef => ⟨hef.token.span.2, hef⟩)).1
    intro d hd
    obtain ⟨e, he, rfl⟩ := List.mem_map.1 hd
    exact List.forall_mem_singleton.2 (hwithin e he)
  | lowering h => exact List.forall_mem_singleton.2 (List.forall_mem_singleton.2 h.span.2)
  | run e =>
    refine List.forall_mem_singleton.2 ?_
    cases e <;> exact List.forall_mem_nil _

/-- What the scanner cannot read is inside the source. -/
theorem ScanError.labels {e : ScanError} (h : Token.scan source = .error e) :
    ∀ label ∈ e.diagnostic.labels, label.span.Within source := by
  obtain ⟨cuts, remains, hcuts, ⟨_, hok⟩ | ⟨hrest, herror⟩⟩ := Token.exists_cuts 0 source.toList
  · rw [Token.scan, hok] at h
    cases h
  · rw [Token.scan, herror, Nat.zero_add] at h
    obtain rfl := Except.error.inj h
    have hstuck := Pattern.stuck_longestStart hrest hcuts.unmatched
    obtain ⟨behind, hbehind⟩ := hstuck.starts
    have hpos := byteLength_pos hstuck.nonempty
    have htext : source.toList = cuts.flatMap Token.Cut.text ++
        Pattern.stuck remains ++ behind := by
      rw [List.append_assoc, hbehind, ← hcuts.text_eq]
    refine List.forall_mem_singleton.2 ?_
    dsimp only
    -- The snippet is not empty, so the label is as long as the snippet.
    rw [String.toList_ofList, Nat.max_eq_left hpos]
    exact Span.within_eq htext

/-- A label inside a source, whose line can be shown and on which the label starts. -/
structure Label.Inside (source : String) (label : Label) : Prop where
  ordered : label.span.start ≤ label.span.stop
  le : label.span.stop ≤ source.utf8ByteSize
  start : (⟨label.span.start⟩ : String.Pos.Raw).IsValid source
  stop : (⟨label.span.stop⟩ : String.Pos.Raw).IsValid source
  shown :
      ∃ before line, Lines.IsPosition source.toList label.span.start before line
        (Lines.locate source label.span.start) ∧
        (Lines.locate source label.span.start).column ≤ byteLength line + 1 ∧
        Lines.text source (Lines.locate source label.span.start).line =
          String.ofList (Lines.trimReturns line)

theorem Label.inside_of_within {label : Label} (h : label.span.Within source) :
    label.Inside source := by
  have hle := h.le
  have hordered := h.ordered
  obtain ⟨before, line, hplace⟩ := Lines.locate_position source label.span.start
  refine ⟨hordered, hle, h.start, h.stop, before, line, hplace, hplace.inside ?_, hplace.text_eq⟩
  rw [byteLength_toList]
  exact hordered.trans hle

end Inside

/-- **Every reported place is in the source.** The statements of a program have the places of their
tokens, in order. A source that has no result has labels inside of it only. -/
theorem Source.places_inside (source : String) :
    (∀ tokens p, Token.scan source = .ok tokens → (Program.ofTokens tokens).outcome = .ok p →
      Program.Located tokens p) ∧
    (∀ limit sink e, (Source.run source limit sink).result = .error e →
      ∀ d ∈ e.diagnostics, ∀ label ∈ d.labels, label.Inside source) := by
  refine ⟨fun tokens p hscan hp => ?_, fun limit sink e herror d hd label hlabel => ?_⟩
  · have hordered := Token.ordered_of_scan hscan
    obtain ⟨_, ⟨body, rfl, hplaced⟩, _⟩ := Token.account_of_scan hscan
    have hspread :=
      (Program.lines_of_ofTokens rfl (fun t ht => (hplaced t ht).kind_ne.1) hp).spread hordered
    refine ⟨hspread.nonempty hordered, hspread.ordered hordered, ?_⟩
    rwa [List.length_append, List.length_singleton, Nat.add_sub_cancel]
  · refine Label.inside_of_within ?_
    -- Without tokens the scanner has failed; with tokens every place is carried along from theirs.
    rcases hscan : Token.scan source with failure | tokens
    · have hresult : (Source.run source limit sink).result = .error (.scan failure) := by
        simp only [Source.run, Source.compile, Source.parse, hscan]
      obtain rfl := Except.error.inj (herror.symm.trans hresult)
      obtain rfl := List.mem_singleton.1 hd
      exact ScanError.labels hscan label hlabel
    · have halike := Source.run_alike (Span.inside_carried source) hscan hscan
        (Token.inside_of_scan hscan) limit sink
      rw [herror] at halike
      obtain ⟨_, _, hok, _⟩ | ⟨_, _, he, _, hsame⟩ := halike.2.ok_or_error
      · cases hok
      · obtain rfl := Except.error.inj he
        exact hsame.labels d hd label hlabel

set_option maxRecDepth 8192 in
/-- A program of two statements, the second of which reads a variable without a value. -/
theorem Source.places_inside_undefined :
    ∃ tokens p e, Token.scan "'é'\n-t" = .ok tokens ∧ (Program.ofTokens tokens).outcome = .ok p ∧
      p.map Statement.span = [⟨0, 4⟩, ⟨5, 7⟩] ∧ Program.Located tokens p ∧
      (Source.run "'é'\n-t" none (Sink.new none)).result = .error e ∧
      (e.diagnostics.flatMap Diagnostic.labels).map Label.span = [⟨5, 7⟩] ∧
      ∀ d ∈ e.diagnostics, ∀ label ∈ d.labels, label.Inside "'é'\n-t" := by
  have hscan : Token.scan "'é'\n-t" = .ok [⟨.charLiteral, "é", true, ⟨0, 4⟩⟩,
      ⟨.minus, "-", false, ⟨5, 6⟩⟩,
      ⟨.identifier, "t", false, ⟨6, 7⟩⟩, ⟨.endOfFile, "", true, ⟨7, 7⟩⟩] := by
    with_unfolding_all rfl
  have hp : (Program.ofTokens [⟨.charLiteral, "é", true, ⟨0, 4⟩⟩, ⟨.minus, "-", false, ⟨5, 6⟩⟩,
      ⟨.identifier, "t", false, ⟨6, 7⟩⟩, ⟨.endOfFile, "", true, ⟨7, 7⟩⟩]).outcome =
      .ok [⟨.literal (.char 'é'), ⟨0, 4⟩⟩, ⟨.unary .negate (.ident "t"), ⟨5, 7⟩⟩] := by
    cbv
  have herror : (Source.run "'é'\n-t" none (Sink.new none)).result =
      .error (.lowering ⟨.undefinedVariable "t", ⟨5, 7⟩⟩) := by
    rw [Source.run, Source.compile, Source.parse, hscan]
    cbv
  obtain ⟨hlocated, hlabels⟩ := Source.places_inside "'é'\n-t"
  exact ⟨_, _, _, hscan, hp, rfl, hlocated _ _ hscan hp, herror, rfl, hlabels _ _ _ herror⟩

end LineScript
