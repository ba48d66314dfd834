import LineScript.Command.Execute

/-!
# The program

Reads files, runs the command line and writes what comes of it.
-/

set_option autoImplicit false

namespace LineScript.Main

/-- The cause behind an error number of the system, which some calls report as it is and some
negated. -/
def ofNumber (reported : UInt32) (e : IO.Error) : FileError :=
  let number := min reported (0 - reported)
  if number = 2 then .missing
  else if number = 13 then .denied
  else if number = 20 then .notDirectory
  else if number = 21 then .isDirectory
  else if number = 36 then .nameTooLong
  else .other (toString e)

/-- Why a file cannot be read. -/
def cause (e : IO.Error) : FileError :=
  match e with
  | .noFileOrDirectory _ number _ => ofNumber number e
  | .permissionDenied _ number _ => ofNumber number e
  | .inappropriateType _ number _ => ofNumber number e
  | .invalidArgument _ number _ => ofNumber number e
  | .illegalOperation number _ => ofNumber number e
  | .otherError number _ => ofNumber number e
  | _ => .other (toString e)

/-- The file that a command line reads, if any, so that it can be read before the command is carried
out. -/
def fileOf? (arguments : List String) : Option String :=
  match (Command.parse arguments).map Command.Invocation.action with
  | some (.run file _) => some file
  | some (.ast file) => some file
  | some (.asm file) => some file
  | _ => none

/-- Reads a file. -/
def load (file : String) : IO (Except FileError (List UInt8)) := do
  try
    let bytes ← IO.FS.readBinFile file
    pure (.ok bytes.toList)
  catch e =>
    pure (.error (cause e))

end LineScript.Main

open LineScript in
def main (arguments : List String) : IO UInt32 := do
  let contents ← match Main.fileOf? arguments with
    | some file => Main.load file
    | none => pure (.error .missing)
  let stderr ← IO.getStderr
  let outcome := Command.execute (fun _ => contents) (← stderr.isTty) arguments
  let stdout ← IO.getStdout
  stdout.write outcome.stdout.toByteArray
  stdout.flush
  stderr.putStr outcome.stderr
  pure outcome.status.toUInt32
