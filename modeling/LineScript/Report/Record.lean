import LineScript.Json
import LineScript.Report.Diagnostic
import LineScript.Text.Lines

/-!
# Diagnostics for programs

A report as one line of JSON. What a report does not have is left out; a label has a line and a
column where the source is known.
-/

set_option autoImplicit false

namespace LineScript

/-- A label as JSON. -/
def Label.toJson (source : Option String) (label : Label) : Json :=
  let position := match source with
    | none => []
    | some source =>
      let place := Lines.locate source label.span.start
      [("line", Json.nat place.line), ("col", Json.nat place.column)]
  .object ([("start", Json.nat label.span.start), ("end", Json.nat label.span.stop),
    ("message", .string label.message)] ++ position)

/-- A member that is left out if there is no value. -/
def Json.optional (name : String) (value : Option Json) : List (String × Json) :=
  match value with
  | some value => [(name, value)]
  | none => []

namespace Diagnostic

/-- The report as JSON. -/
def toJson (d : Diagnostic) : Json :=
  .object ([("severity", .string "error")] ++ Json.optional "code" (d.code.map .string) ++
    [("message", .string d.message), ("labels", .array (d.labels.map (Label.toJson d.source)))] ++
    Json.optional "instruction" (d.instruction.map Json.nat) ++
    [("notes", .array (d.notes.map .string))] ++
    Json.optional "suggestion" (d.suggestion.map .string))

/-- The report as one line of JSON. -/
def record (d : Diagnostic) : String := d.toJson.render

end Diagnostic

end LineScript
