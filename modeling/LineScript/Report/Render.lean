import LineScript.Report.Diagnostic
import LineScript.Text.Lines

/-!
# Diagnostics for people

A report is laid out once, as pieces of text of which some carry a style; `Styled.plain` drops the
styles and `Styled.colored` writes them as terminal sequences. The layout never looks at a style, so
widths and columns are the same in both.

Below the message the line of the first label is shown, between a gutter with its number and a row
of carets that mark the label. Carets start in the label's column and stop at the end of the line,
but there is always one.
-/

set_option autoImplicit false

namespace LineScript

/-! ## Styled text -/

/-- Emphasis of a piece of text. -/
inductive Style where
  | bold
  /-- For what is wrong. -/
  | alarm
  /-- For the frame around the source. -/
  | frame
  | dim
deriving DecidableEq

/-- The parameters of the terminal sequence for a style. -/
def Style.parameters : Style → String
  | .bold => "1"
  | .alarm => "1;31"
  | .frame => "36"
  | .dim => "2"

/-- A piece of text, with or without a style. -/
structure Styled where
  style : Option Style
  text : String

namespace Styled

/-- The text alone. -/
def plain (pieces : List Styled) : String := String.join (pieces.map Styled.text)

/-- One piece with its terminal sequences. -/
def painted (s : Styled) : String :=
  match s.style with
  | none => s.text
  | some style => s!"\x1b[{style.parameters}m{s.text}\x1b[0m"

/-- The text with terminal sequences. -/
def colored (pieces : List Styled) : String := String.join (pieces.map painted)

end Styled

/-- Text without a style. -/
def bare (text : String) : Styled := ⟨none, text⟩

/-- Text in a style. -/
def styled (style : Style) (text : String) : Styled := ⟨some style, text⟩

/-! ## Layout -/

/-- A run of one character. -/
def repeated (count : Nat) (c : Char) : String := String.ofList (List.replicate count c)

/-- How many carets mark a label that starts `start` bytes into a line of `length` bytes. -/
def caretCount (span : Span) (start length : Nat) : Nat :=
  max 1 (min span.length (max 1 (length - start)))

/-- The source line of a label with its gutter and carets. -/
def Label.snippet (label : Label) (source : String) : List Styled :=
  let place := Lines.locate source label.span.start
  let text := Lines.text source place.line
  let number := toString place.line
  let pad := repeated number.length ' '
  let pipe := styled .frame "|"
  let start := place.column - 1
  let indent := repeated start ' '
  let carets := styled .alarm (repeated (caretCount label.span start (byteLength text.toList)) '^')
  let caption := if label.message = "" then [] else [bare " ", styled .alarm label.message]
  [bare "  ", styled .frame "-->", bare s!" {place.line}:{place.column}\n",
    bare s!"{pad} ", pipe, bare "\n",
    styled .frame number, bare " ", pipe, bare s!" {text}\n",
    bare s!"{pad} ", pipe, bare s!" {indent}", carets] ++ caption ++
  [bare "\n", bare s!"{pad} ", pipe, bare "\n"]

namespace Diagnostic

/-- A line of advice below the report. -/
def remark (text : String) : List Styled := [bare "  ", styled .dim "=", bare s!" {text}\n"]

/-- The name of the report with its code. -/
def heading (d : Diagnostic) : String :=
  match d.code with
  | some code => s!"error[{code}]"
  | none => "error"

/-- The report as styled text. -/
def layout (d : Diagnostic) : List Styled :=
  let snippet := match d.labels, d.source with
    | label :: _, some source => label.snippet source
    | _, _ => []
  let help := match d.suggestion with
    | some suggestion => remark s!"help: {suggestion}"
    | none => []
  let details := match d.code with
    | some code => remark s!"run `ok explain {code}` for details"
    | none => []
  [styled .alarm d.heading, bare ": ", styled .bold d.message, bare "\n"] ++ snippet ++
    d.notes.flatMap (fun note => remark s!"note: {note}") ++ help ++ details

/-- The report without colour. -/
def render (d : Diagnostic) : String := Styled.plain d.layout

/-- The report with colour. -/
def renderColored (d : Diagnostic) : String := Styled.colored d.layout

end Diagnostic

end LineScript
