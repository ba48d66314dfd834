import LineScript.Text.Span
import LineScript.Text.Split

/-!
# Files

How a path finds a file. A path is walked one name at a time, from the root or from the working
directory. Empty names and `.` stay where they are, `..` goes to the directory above; each of them,
like any other name, can only be looked up in a directory, so a slash behind the name of a file is
an error. The first name that cannot be looked up decides.
-/

set_option autoImplicit false

namespace LineScript

/-- Why a file cannot be read. -/
inductive FileError where
  | missing
  | denied
  | notDirectory
  | isDirectory
  | nameTooLong
  | other (reason : String)
deriving DecidableEq

/-- The wording of the error, with the number that the system has for it. -/
def FileError.message : FileError → String
  | .missing => "No such file or directory (os error 2)"
  | .denied => "Permission denied (os error 13)"
  | .notDirectory => "Not a directory (os error 20)"
  | .isDirectory => "Is a directory (os error 21)"
  | .nameTooLong => "File name too long (os error 36)"
  | .other reason => reason

/-- A file or a directory. -/
inductive Node where
  | file (bytes : List UInt8)
  | directory (entries : List (String × Node))

namespace Node

/-- The most bytes that a name can have. -/
def maxName : Nat := 255

/-- A path has fewer bytes than this. -/
def maxPath : Nat := 4096

/-- Looks up one name in a directory. -/
def find (entries : List (String × Node)) (name : String) : Except FileError Node :=
  if maxName < byteLength name.toList then .error .nameTooLong
  else
    match entries.find? (fun entry => entry.1 == name) with
    | some entry => .ok entry.2
    | none => .error .missing

/-- Walks along names. `above` are the directories on the way here, the nearest first; the root is
above itself. -/
def walk (above : List Node) (here : Node) : List String → Except FileError Node
  | [] => .ok here
  | name :: rest =>
    match here with
    | .file _ => .error .notDirectory
    | .directory entries =>
      if name = "" ∨ name = "." then
        walk above here rest
      else if name = ".." then
        match above with
        | [] => walk [] here rest
        | parent :: others => walk others parent rest
      else
        match find entries name with
        | .ok next => walk (here :: above) next rest
        | .error e => .error e

end Node

/-- A tree of files and the directory to start from, given by the names on the way to it. -/
structure Files where
  root : Node
  working : List String

namespace Files

/-- The names of a path. -/
def names (path : String) : List String := (splitAtEach '/' path.toList).map String.ofList

/-- Reads the file at a path. -/
def read (files : Files) (path : String) : Except FileError (List UInt8) :=
  if path = "" then .error .missing
  else if Node.maxPath ≤ byteLength path.toList then .error .nameTooLong
  else
    let names := names path
    -- An absolute path starts with a slash, so its first name is empty.
    let way := if names.head? = some "" then names else files.working ++ names
    match Node.walk [] files.root way with
    | .ok (.file bytes) => .ok bytes
    | .ok (.directory _) => .error .isDirectory
    | .error e => .error e

end Files

end LineScript
