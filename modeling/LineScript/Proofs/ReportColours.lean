import LineScript.Proofs.Text.Position
import LineScript.Report.Render
import Mathlib.Data.Nat.Digits.Lemmas

/-!
# Colours of reports

Colour changes nothing but colour: a report with colour, without its colour sequences, is the report
without colour (`Diagnostic.render_without_colours`). A sequence is an escape character, `[`, digits
and semicolons, and `m`. `Terminal.withoutSequences` takes out each of them, from the left, wherever
they come from.

This holds of every layout whose pieces have no escape character
(`Styled.withoutSequences_colored`): the characters that `Styled.painted` puts around a piece are
complete sequences, and no other sequence starts in the text. What is left is that the layout of a
report has no escape characters but those that it was given.
-/

set_option autoImplicit false

namespace LineScript

namespace Terminal

/-! ## Colour sequences -/

/-- The character that starts a terminal sequence. -/
def escapeChar : Char := '\x1b'

/-- What stands between the bracket and the end of a colour sequence. -/
def isParameter (c : Char) : Bool := c.isDigit || c == ';'

/-- What is behind the colour sequence that a text starts with. -/
def behindSequence? : List Char → Option (List Char)
  | '\x1b' :: '[' :: rest =>
    match rest.dropWhile isParameter with
    | 'm' :: behind => some behind
    | _ => none
  | _ => none

theorem length_behindSequence? {text behind : List Char} (h : behindSequence? text = some behind) :
    behind.length < text.length := by
  unfold behindSequence? at h
  split at h
  · rename_i rest
    split at h
    · rename_i heq
      obtain rfl := Option.some.inj h
      have hle : (rest.dropWhile isParameter).length ≤ rest.length :=
        (List.dropWhile_suffix _).length_le
      rw [heq, List.length_cons] at hle
      rw [List.length_cons, List.length_cons]
      omega
    · cases h
  · cases h

/-- A text without its colour sequences. -/
def withoutSequences : List Char → List Char
  | [] => []
  | c :: rest =>
    match _h : behindSequence? (c :: rest) with
    | some behind => withoutSequences behind
    | none => c :: withoutSequences rest
termination_by text => text.length
decreasing_by
  · exact length_behindSequence? _h
  · exact Nat.lt_succ_self _

/-- Only complete sequences are taken out. -/
example :
    withoutSequences "\x1b[1;31m^\x1b[0m \x1b[31 \x1b[\x1b[m".toList =
      "^ \x1b[31 \x1b[".toList := by cbv

variable {c : Char} {text rest parameters : List Char}

theorem withoutSequences_eq (c : Char) (rest : List Char) : withoutSequences (c :: rest) =
    match behindSequence? (c :: rest) with
    | some behind => withoutSequences behind
    | none => c :: withoutSequences rest := by
  rw [withoutSequences]
  split <;> rename_i heq <;> rw [heq]

theorem withoutSequences_cons (h : c ≠ escapeChar) (rest : List Char) :
    withoutSequences (c :: rest) = c :: withoutSequences rest := by
  have hnone : behindSequence? (c :: rest) = none := by
    unfold behindSequence?
    split
    · rename_i heq
      exact absurd (List.cons.inj heq).1 h
    · rfl
  rw [withoutSequences_eq, hnone]

/-- Text without an escape character stays. -/
theorem withoutSequences_append (h : escapeChar ∉ text) (rest : List Char) :
    withoutSequences (text ++ rest) = text ++ withoutSequences rest := by
  induction text with
  | nil => rfl
  | cons c text ih =>
    obtain ⟨hc, htext⟩ := not_or.1 (mt List.mem_cons.2 h)
    rw [List.cons_append, withoutSequences_cons (Ne.symm hc), ih htext, List.cons_append]

/-- A sequence goes as a whole, in front of any rest. -/
theorem withoutSequences_sequence (h : ∀ c ∈ parameters, isParameter c) (rest : List Char) :
    withoutSequences (escapeChar :: '[' :: (parameters ++ 'm' :: rest)) =
      withoutSequences rest := by
  have hdrop : (parameters ++ 'm' :: rest).dropWhile isParameter = 'm' :: rest := by
    rw [List.dropWhile_append_of_pos h]
    rfl
  have hbehind : behindSequence? (escapeChar :: '[' :: (parameters ++ 'm' :: rest)) =
      some rest := by
    simp only [behindSequence?, escapeChar, hdrop]
  rw [withoutSequences_eq, hbehind]

/-! ## Texts without sequences -/

/-- No terminal sequence starts in a text. -/
def Free (text : String) : Prop := escapeChar ∉ text.toList

instance (text : String) : Decidable (Free text) :=
  inferInstanceAs (Decidable (escapeChar ∉ text.toList))

namespace Free

variable {a b : String}

theorem append (ha : Free a) (hb : Free b) : Free (a ++ b) := by
  rw [Free, String.toList_append, List.mem_append]
  exact not_or.2 ⟨ha, hb⟩

theorem repeated (h : c ≠ escapeChar) (count : Nat) : Free (repeated count c) := by
  rw [Free, LineScript.repeated, String.toList_ofList]
  exact fun hmem => h (List.eq_of_mem_replicate hmem).symm

theorem number (n : Nat) : Free (toString n) := by
  intro hmem
  rw [Nat.toString_eq_repr, Nat.repr, String.toList_ofList] at hmem
  have hdigit : escapeChar.isDigit = true :=
    Nat.isDigit_of_mem_toDigits (by decide) (by decide) hmem
  exact absurd hdigit (by decide)

end Free

end Terminal

namespace Styled

open Terminal

variable {pieces : List Styled}

theorem isParameter_parameters (style : Style) : ∀ c ∈ style.parameters.toList, isParameter c := by
  refine List.all_eq_true.1 ?_
  cases style <;> rfl

/-- A styled piece is its text between the sequence that sets the style and the one that ends it. -/
theorem toList_painted (style : Style) (text : String) :
    (painted ⟨some style, text⟩).toList = escapeChar :: '[' :: (style.parameters.toList ++
      'm' :: (text.toList ++ escapeChar :: '[' :: (['0'] ++ ['m']))) := by
  have hpainted : painted ⟨some style, text⟩ = "\x1b[" ++ style.parameters ++ "m" ++ text ++
      "\x1b[0m" := rfl
  simp [hpainted, escapeChar]

/-- Of a painted piece the text is left. -/
theorem withoutSequences_painted {s : Styled} (h : Free s.text) (rest : List Char) :
    withoutSequences (s.painted.toList ++ rest) = s.text.toList ++ withoutSequences rest := by
  obtain ⟨style, text⟩ := s
  cases style with
  | none => exact withoutSequences_append h rest
  | some style =>
    -- One sequence in front of the text and one behind it; nothing in the text starts a third one.
    have hreset : ∀ c ∈ ['0'], isParameter c := List.forall_mem_singleton.2 rfl
    rw [toList_painted]
    calc withoutSequences (escapeChar :: '[' :: (style.parameters.toList ++
          'm' :: (text.toList ++ escapeChar :: '[' :: (['0'] ++ ['m']))) ++ rest)
      _ = withoutSequences (escapeChar :: '[' :: (style.parameters.toList ++
          'm' :: (text.toList ++ escapeChar :: '[' :: (['0'] ++ 'm' :: rest)))) := by simp
      _ = withoutSequences (text.toList ++ escapeChar :: '[' :: (['0'] ++ 'm' :: rest)) :=
        withoutSequences_sequence (isParameter_parameters style) _
      _ = text.toList ++ withoutSequences (escapeChar :: '[' :: (['0'] ++ 'm' :: rest)) :=
        withoutSequences_append h _
      _ = text.toList ++ withoutSequences rest := by rw [withoutSequences_sequence hreset]

/-- **Without its colour sequences, coloured text is the text alone.** -/
theorem withoutSequences_colored (h : ∀ s ∈ pieces, Free s.text) :
    withoutSequences (colored pieces).toList = (plain pieces).toList := by
  rw [colored, plain, String.toList_join, String.toList_join]
  induction pieces with
  | nil => simp [withoutSequences]
  | cons s pieces ih =>
    simp only [List.map_cons, List.flatMap_cons]
    rw [withoutSequences_painted (h s List.mem_cons_self),
      ih fun t ht => h t (List.mem_cons_of_mem _ ht)]

theorem free_plain (h : ∀ s ∈ pieces, Free s.text) : Free (plain pieces) := by
  intro hmem
  rw [plain, String.toList_join, List.mem_flatMap] at hmem
  obtain ⟨text, htext, hescape⟩ := hmem
  obtain ⟨s, hs, rfl⟩ := List.mem_map.1 htext
  exact h s hs hescape

end Styled

/-! ## Layouts without sequences -/

open Terminal

namespace Lines

/-- What is shown of a source has only its characters. -/
theorem free_text {source : String} (h : Free source) (line : Nat) : Free (text source line) := by
  rw [text]
  split
  · decide
  · rw [Free, String.toList_ofList]
    intro hmem
    have hline : escapeChar ∈ ((splitAtEach '\n' source.toList)[line - 1]?).getD [] := by
      rw [trimReturns, trimEnd, List.mem_reverse] at hmem
      exact List.mem_reverse.1 ((List.dropWhile_suffix _).subset hmem)
    cases hpiece : (splitAtEach '\n' source.toList)[line - 1]? with
    | none =>
      rw [hpiece] at hline
      cases hline
    | some piece =>
      rw [hpiece] at hline
      exact h (subset_of_mem_splitAtEach (List.mem_of_getElem? hpiece) hline)

end Lines

theorem Label.free_snippet {label : Label} {source : String} (hlabel : Free label.message)
    (hsource : Free source) : ∀ s ∈ label.snippet source, Free s.text := by
  have hplace (line column : Nat) : Free s!" {line}:{column}\n" :=
    ((((by decide : Free " ").append (.number line)).append (by decide)).append
      (.number column)).append (by decide)
  have hpad (count : Nat) : Free (repeated count ' ' ++ " ") :=
    (Free.repeated (by decide) count).append (by decide)
  have hindent (count : Nat) : Free (" " ++ repeated count ' ') :=
    (by decide : Free " ").append (.repeated (by decide) count)
  have hline (line : Nat) : Free s!" {Lines.text source line}\n" :=
    ((by decide : Free " ").append (Lines.free_text hsource line)).append (by decide)
  have hcaption : ∀ s ∈ if label.message = "" then [] else [bare " ", styled .alarm label.message],
      Free s.text := by
    split
    · exact List.forall_mem_nil _
    · exact List.forall_mem_cons.2 ⟨by decide, List.forall_mem_singleton.2 hlabel⟩
  rw [snippet]
  refine List.forall_mem_append.2 ⟨List.forall_mem_append.2 ⟨?_, hcaption⟩, ?_⟩
  · simp only [List.forall_mem_cons]
    exact ⟨by decide, by decide, hplace _ _, hpad _, by decide, by decide,
      .number _, by decide, by decide, hline _,
      hpad _, by decide, hindent _, .repeated (by decide) _, List.forall_mem_nil _⟩
  · simp only [List.forall_mem_cons]
    exact ⟨by decide, hpad _, by decide, by decide, List.forall_mem_nil _⟩

namespace Diagnostic

theorem free_remark {text : String} (h : Free text) : ∀ s ∈ remark text, Free s.text := by
  rw [remark]
  simp only [List.forall_mem_cons]
  exact ⟨by decide, by decide, ((by decide : Free " ").append h).append (by decide),
    List.forall_mem_nil _⟩

/-- The texts of a report, with the source. -/
def texts (d : Diagnostic) : List String :=
  d.code.toList ++ d.message :: d.labels.map Label.message ++ d.notes ++ d.suggestion.toList ++
    d.source.toList

/-- The layout adds no escape character of its own. -/
theorem free_layout {d : Diagnostic} (h : ∀ text ∈ d.texts, Free text) :
    ∀ s ∈ d.layout, Free s.text := by
  obtain ⟨code, message, labels, instruction, notes, suggestion, source⟩ := d
  simp only [texts, List.forall_mem_append, List.forall_mem_cons, List.forall_mem_map] at h
  obtain ⟨⟨⟨⟨hcode, hmessage, hlabels⟩, hnotes⟩, hsuggestion⟩, hsource⟩ := h
  unfold layout
  dsimp only
  -- One case for each section of the report.
  refine List.forall_mem_append.2 ⟨List.forall_mem_append.2 ⟨List.forall_mem_append.2
    ⟨List.forall_mem_append.2 ⟨?heading, ?snippet⟩, ?notes⟩, ?help⟩, ?details⟩
  case heading =>
    simp only [List.forall_mem_cons]
    refine ⟨?_, by decide, hmessage, by decide, List.forall_mem_nil _⟩
    cases code with
    | none => exact (by decide : Free "error")
    | some code =>
      exact ((by decide : Free "error[").append (hcode code (by simp))).append (by decide)
  case snippet =>
    split
    · rename_i label labels source
      exact Label.free_snippet (hlabels label List.mem_cons_self) (hsource source (by simp))
    · exact List.forall_mem_nil _
  case notes =>
    intro s hs
    obtain ⟨note, hnote, hs⟩ := List.mem_flatMap.1 hs
    exact free_remark ((by decide : Free "note: ").append (hnotes note hnote)) s hs
  case help =>
    cases suggestion with
    | none => exact List.forall_mem_nil _
    | some suggestion =>
      exact free_remark ((by decide : Free "help: ").append (hsuggestion suggestion (by simp)))
  case details =>
    cases code with
    | none => exact List.forall_mem_nil _
    | some code =>
      exact free_remark
        (((by decide : Free "run `ok explain ").append (hcode code (by simp))).append (by decide))

/-- **Colour changes nothing but colour.** A report whose texts and source have no escape character
is the same with colour as without, once the colour sequences are taken out, and has no escape
character without colour. -/
theorem render_without_colours (d : Diagnostic) (h : ∀ text ∈ d.texts, Free text) :
    withoutSequences d.renderColored.toList = d.render.toList ∧ escapeChar ∉ d.render.toList :=
  ⟨Styled.withoutSequences_colored (free_layout h), Styled.free_plain (free_layout h)⟩

/-- A report has colour if it may have, at least in its heading. -/
theorem escape_mem_renderColored (d : Diagnostic) : escapeChar ∈ d.renderColored.toList := by
  have hheading : styled .alarm d.heading ∈ d.layout := by simp [layout]
  rw [renderColored, Styled.colored, String.toList_join, List.mem_flatMap]
  refine ⟨_, List.mem_map_of_mem hheading, ?_⟩
  rw [styled, Styled.toList_painted]
  exact List.mem_cons_self

/-- A report with all its parts. -/
def allParts : Diagnostic where
  code := some "OK-C001"
  message := "undefined variable 'total'"
  labels := [⟨⟨7, 19⟩, "in this statement"⟩, ⟨⟨0, 5⟩, "behind this one"⟩]
  notes := ["the previous token was =", "é"]
  suggestion := some "Assign 'total' before using it."
  source := some "a = 1\r\nb = total\n"

theorem render_without_colours_allParts :
    (∀ text ∈ allParts.texts, Free text) ∧ escapeChar ∈ allParts.renderColored.toList ∧
      withoutSequences allParts.renderColored.toList = allParts.render.toList ∧
      escapeChar ∉ allParts.render.toList :=
  ⟨by decide, escape_mem_renderColored allParts, render_without_colours allParts (by decide)⟩

end Diagnostic

end LineScript
