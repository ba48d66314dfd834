import LineScript.Session

/-!
# Diagnostics

A diagnostic is an error report in one shape, whichever stage the error comes from: a message,
labelled places in the source, notes, and advice. `SourceError.diagnostics` makes the reports for an
error, one for each thing that is wrong.
-/

set_option autoImplicit false

namespace LineScript

/-- A place in the source and what is there. -/
structure Label where
  span : Span
  message : String

/-- An error report. -/
structure Diagnostic where
  code : Option String := none
  message : String
  labels : List Label := []
  /-- The index of the failing instruction. -/
  instruction : Option Nat := none
  notes : List String := []
  suggestion : Option String := none
  /-- The text that the labels point into. -/
  source : Option String := none

/-- The report of text that cannot be read as tokens. -/
def ScanError.diagnostic (e : ScanError) : Diagnostic where
  code := some "OK-L001"
  message := s!"unexpected input '{e.snippet}'"
  labels := [⟨⟨e.position, e.position + max (byteLength e.snippet.toList) 1⟩, "here"⟩]
  suggestion := some e.suggestion

/-- The report of a token that does not fit. -/
def ParseError.diagnostic (e : ParseError) : Diagnostic where
  code := some ParseError.code
  message := e.message
  labels := [⟨e.span, s!"expected {e.expected.name}"⟩]
  notes :=
    if e.expected = .endOfLine then []
    else (e.after.map (fun kind => s!"the previous token was {kind.tag}")).toList
  suggestion := if e.expected = .endOfLine then some "Put each statement on its own line." else none

/-- The report of a faulty literal. -/
def LiteralError.diagnostic (e : LiteralError) : Diagnostic where
  code := some e.code
  message := e.message
  labels := [⟨e.span, "in this literal"⟩]
  suggestion :=
    match e.fault with
    | .invalidEscape _ => some "Valid escapes are \\n \\t \\r \\\\ \\\" \\' and \\0."
    | .charLength => some "Use double quotes for a string of several characters."
    | .numberRange => none

/-- The report of a program that cannot be turned into code. -/
def Lowering.Located.diagnostic (e : Lowering.Located) : Diagnostic where
  code := some e.error.code
  message := e.error.message
  labels := [⟨e.span, "in this statement"⟩]
  notes :=
    match e.error with
    | .unknownFunction _ => ["the built-in functions are print and len"]
    | _ => []
  suggestion :=
    match e.error with
    | .undefinedVariable name => some s!"Assign '{name}' before using it."
    | _ => none

/-- The report of a run that ended early. -/
def RunError.diagnostic : RunError → Diagnostic
  | .instruction index opcode fault =>
    { code := some fault.code
      message := fault.message
      instruction := some index
      notes := [s!"at instruction {index} ({opcode})"] }
  | .stepLimit limit =>
    { code := some (RunError.stepLimit limit).code
      message := (RunError.stepLimit limit).message
      suggestion := some "Raise --max-steps or look for a jump that never ends." }

/-- The reports of an error, in order. -/
def SourceError.diagnostics : SourceError → List Diagnostic
  | .scan e => [e.diagnostic]
  | .parse e => [e.diagnostic]
  | .literals errors => errors.map LiteralError.diagnostic
  | .lowering e => [e.diagnostic]
  | .run e => [e.diagnostic]

end LineScript
