import LineScript.Command.Arguments
import LineScript.Command.Files
import LineScript.Expr.Dump
import LineScript.Report.Codes
import LineScript.Report.Record
import LineScript.Report.Render

/-!
# Commands

What each command writes and the status it ends with. Commands know files only through a function
that reads them, and produce their output as a value, so nothing here depends on the world.
-/

set_option autoImplicit false

namespace LineScript.Command

/-- How a command ends. -/
structure Outcome where
  status : Nat
  stdout : List UInt8
  stderr : String

/-- Reads the bytes of a file, or says why it cannot. -/
abbrev Reader := String → Except FileError (List UInt8)

/-- Reports about a source, if there is one. -/
structure Failure where
  diagnostics : List Diagnostic
  source : Option String

/-- What is written to standard output, in full or up to a failure. -/
structure Written where
  stdout : List UInt8
  failure : Option Failure := none

/-- A failure with nothing written before it. -/
def Written.failed (failure : Failure) : Written := ⟨[], some failure⟩

/-- Text without a failure. -/
def Written.text (text : String) : Written := ⟨Utf8.encode text, none⟩

/-- The text of a source file. -/
def readSource (read : Reader) (file : String) : Except Failure String :=
  let failed (reason : String) : Failure :=
    ⟨[{ message := s!"cannot read {file}: {reason}" }], none⟩
  match read file with
  | .error e => .error (failed e.message)
  | .ok bytes =>
    match Utf8.decode? bytes with
    | some text => .ok text
    | none => .error (failed "stream did not contain valid UTF-8")

/-- The reports of an error in a source. -/
def sourceFailure (source : String) (e : SourceError) : Failure := ⟨e.diagnostics, some source⟩

/-- The version line. -/
def versionText : String := "ok 0.4.0\n"

/-- How the program is called. -/
def usageText : String := textOfLines [
  "Usage: ok [--json] [--no-color] [-v | --verbose] <COMMAND>",
  "",
  "Commands:",
  "  run [--max-steps <N>] <FILE>  Compile and run a source file",
  "  ast <FILE>                    Print the parsed program as JSON",
  "  asm <FILE>                    Print the compiled instruction listing",
  "  explain [CODE]                Explain an error code, or list every code",
  "  version                       Print the version"]

/-- The failure for a code that does not exist. -/
def unknownCode (code : String) : Failure :=
  ⟨[{ message := s!"unknown error code '{code}'"
      suggestion := some "Codes look like OK-L001, OK-P001, OK-C001 or OK-R001." }], none⟩

/-- Carries out a command. -/
def perform (read : Reader) : Action → Written
  | .run file limit =>
    match readSource read file with
    | .error failure => .failed failure
    | .ok source =>
      let answer := Source.run source limit (.new none)
      match answer.result with
      | .ok _ => ⟨answer.output, none⟩
      | .error e => ⟨answer.output, some (sourceFailure source e)⟩
  | .ast file =>
    match readSource read file with
    | .error failure => .failed failure
    | .ok source =>
      match Source.parse source with
      | .ok program => .text (program.toJson.renderPretty ++ "\n")
      | .error e => .failed (sourceFailure source e)
  | .asm file =>
    match readSource read file with
    | .error failure => .failed failure
    | .ok source =>
      match Source.compile source with
      | .ok routine => .text (routine.listing ++ s!"; {routine.registers} registers\n")
      | .error e => .failed (sourceFailure source e)
  | .explain none => .text (textOfLines (CodeEntry.all.map (fun e => s!"{e.code}  {e.short}")))
  | .explain (some code) =>
    match CodeEntry.find? code with
    | some entry => .text entry.long
    | none => .failed (unknownCode code)
  | .version => .text versionText
  | .help => .text usageText

/-- The reports of a failure, as JSON lines or as text. -/
def Failure.render (f : Failure) (json color : Bool) : String :=
  String.join (f.diagnostics.map (fun d =>
    let d := match f.source with
      | some source => { d with source := some source }
      | none => d
    if json then d.record ++ "\n" else if color then d.renderColored else d.render))

/-- Runs a command line. `terminal` says whether reports go to a terminal. -/
def execute (read : Reader) (terminal : Bool) (arguments : List String) : Outcome :=
  match parse arguments with
  | none => ⟨2, [], "error: unusable arguments\n\n" ++ usageText⟩
  | some invocation =>
    let written := perform read invocation.action
    match written.failure with
    | none => ⟨0, written.stdout, ""⟩
    | some failure =>
      ⟨1, written.stdout,
        failure.render invocation.options.json (terminal && !invocation.options.noColor)⟩

end LineScript.Command
