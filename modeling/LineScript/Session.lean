import LineScript.Code.Lowering
import LineScript.Grammar.Program
import LineScript.Machine.Run
import LineScript.Token.Scan

/-!
# From source text to a result

The stages one after the other: text to tokens, tokens to a program, program to code, code to a run.
The first stage that fails decides the error; faulty literals are reported together once the rest of
the program has been read.
-/

set_option autoImplicit false

namespace LineScript

/-- Why a source text has no result. -/
inductive SourceError where
  | scan (error : ScanError)
  | parse (error : ParseError)
  /-- Every faulty literal of the text, in order. -/
  | literals (errors : List LiteralError)
  | lowering (error : Lowering.Located)
  | run (error : RunError)

/-- The wording of the error. -/
def SourceError.message : SourceError → String
  | .scan e => e.message
  | .parse e => e.message
  | .literals errors => s!"{errors.length} invalid literal(s)"
  | .lowering e => e.error.message
  | .run e => e.message

namespace Source

/-- The program of a source text. -/
def parse (source : String) : Except SourceError Program :=
  match Token.scan source with
  | .error e => .error (.scan e)
  | .ok tokens =>
    let reading := Program.ofTokens tokens
    match reading.outcome with
    | .error e => .error (.parse e)
    | .ok program => if reading.errors = [] then .ok program else .error (.literals reading.errors)

/-- The code of a source text. -/
def compile (source : String) : Except SourceError Routine :=
  match parse source with
  | .error e => .error e
  | .ok program =>
    match program.lower with
    | .error e => .error (.lowering e)
    | .ok routine => .ok routine

/-- What a source text comes to: the registers or an error, and what was printed. -/
structure Answer where
  result : Except SourceError Registers
  output : List UInt8

/-- Compiles and runs a source text. -/
def run (source : String) (limit : Option Nat) (sink : Sink) : Answer :=
  match compile source with
  | .error e => ⟨.error e, sink.taken.toList⟩
  | .ok routine =>
    let r := routine.run limit sink
    match r.result with
    | .error e => ⟨.error (.run e), r.output⟩
    | .ok registers => ⟨.ok registers, r.output⟩

end Source

end LineScript
