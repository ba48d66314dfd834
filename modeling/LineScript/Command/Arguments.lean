/-!
# The command line

Arguments are read from left to right. Switches may stand before or after the name of the command,
each at most once on either side; after `--` everything is taken literally. A request for the
version or for help is answered as soon as it is met; anything that does not fit makes the whole
line unusable, and what comes first decides.
-/

set_option autoImplicit false

namespace LineScript.Command

/-- The commands. -/
inductive Name where
  | run
  | ast
  | asm
  | explain
  | version
deriving DecidableEq

/-- The command with a given name. -/
def Name.ofString? : String → Option Name
  | "run" => some .run
  | "ast" => some .ast
  | "asm" => some .asm
  | "explain" => some .explain
  | "version" => some .version
  | _ => none

/-- How many operands a command takes. -/
def Name.operands : Name → Nat
  | .version => 0
  | _ => 1

/-- A command whose operand is a file. -/
def Name.takesFile : Name → Bool
  | .run | .ast | .asm => true
  | _ => false

/-- What the command line asks for. -/
inductive Action where
  | run (file : String) (limit : Option Nat)
  | ast (file : String)
  | asm (file : String)
  | explain (code : Option String)
  | version
  | help
deriving DecidableEq

/-- The switches. -/
structure Options where
  /-- Reports as lines of JSON. -/
  json : Bool := false
  /-- Reports never in colour. -/
  noColor : Bool := false
  /-- A log of what is done. -/
  verbose : Bool := false
deriving DecidableEq

/-- A usable command line. -/
structure Invocation where
  action : Action
  options : Options
deriving DecidableEq

/-! ## Words -/

/-- One switch. -/
inductive Switch where
  | json
  | noColor
  | verbose
  | version
  | help
  | unknown
deriving DecidableEq

/-- What an argument is. -/
inductive Word where
  /-- Switches, in order: one that is spelled out, or several letters after one dash. -/
  | switches (all : List Switch)
  /-- The limit of steps, with its value if that is part of the same argument. -/
  | limit (value : Option String)
  /-- The mark after which everything is literal. -/
  | separator
  | literal (text : String)

/-- The switch with a given letter. -/
def Switch.ofLetter (c : Char) : Switch :=
  if c = 'v' then .verbose else if c = 'V' then .version else if c = 'h' then .help else .unknown

/-- The switch with a given word. -/
def Switch.ofWord (word : String) : Switch :=
  if word = "json" then .json
  else if word = "no-color" then .noColor
  else if word = "verbose" then .verbose
  else if word = "version" then .version
  else if word = "help" then .help
  else .unknown

/-- Classifies an argument. -/
def Word.ofString (argument : String) : Word :=
  match argument.toList with
  | ['-', '-'] => .separator
  | '-' :: '-' :: long =>
    if long = "max-steps".toList then .limit none
    else if "max-steps=".toList.isPrefixOf long then .limit (some (String.ofList (long.drop 10)))
    else .switches [.ofWord (String.ofList long)]
  | '-' :: c :: letters => .switches ((c :: letters).map .ofLetter)
  | _ => .literal argument

/-- Reads a limit: a number below `2^64`, with or without a plus sign. -/
def readLimit? (text : String) : Option Nat :=
  let digits := match text.toList with
    | '+' :: rest => rest
    | all => all
  if digits ≠ [] ∧ digits.all Char.isDigit then
    let n := digits.foldl (fun n c => 10 * n + (c.toNat - '0'.toNat)) 0
    if n < 0x10000000000000000 then some n else none
  else
    none

/-! ## Reading -/

/-- Why reading ends before the last argument. -/
inductive Stop where
  | unusable
  | version
  | help

/-- Takes a switch. `inside` is said of the part after the name of a command, where the version
cannot be asked for. -/
def Options.take (o : Options) (inside : Bool) : Switch → Except Stop Options
  | .json => if o.json then .error .unusable else .ok { o with json := true }
  | .noColor => if o.noColor then .error .unusable else .ok { o with noColor := true }
  | .verbose => if o.verbose then .error .unusable else .ok { o with verbose := true }
  | .version => .error (if inside then .unusable else .version)
  | .help => .error .help
  | .unknown => .error .unusable

/-- What is read after the name of a command. -/
structure Given where
  options : Options := {}
  operands : List String := []
  limit : Option Nat := none

/-- Takes an operand. -/
def Given.operand (g : Given) (name : Name) (text : String) : Except Stop Given :=
  if name.operands ≤ g.operands.length ∨ (name.takesFile ∧ text = "") then .error .unusable
  else .ok { g with operands := g.operands ++ [text] }

/-- Takes the limit of steps, which only `run` has. -/
def Given.setLimit (g : Given) (name : Name) (text : String) : Except Stop Given :=
  if name = .run ∧ g.limit.isNone then
    match readLimit? text with
    | some n => .ok { g with limit := some n }
    | none => .error .unusable
  else
    .error .unusable

/-- Reads the arguments after the name of a command. -/
def Given.read (name : Name) (g : Given) : List String → Except Stop Given
  | [] => .ok g
  | argument :: rest =>
    match Word.ofString argument with
    | .separator => rest.foldlM (fun g text => g.operand name text) g
    | .literal text => do
      let g ← g.operand name text
      Given.read name g rest
    | .switches all => do
      let options ← all.foldlM (fun o s => o.take true s) g.options
      Given.read name { g with options := options } rest
    | .limit (some value) => do
      let g ← g.setLimit name value
      Given.read name g rest
    | .limit none =>
      match rest with
      | [] => .error .unusable
      | value :: rest =>
        match Word.ofString value with
        | .literal value => do
          let g ← g.setLimit name value
          Given.read name g rest
        | _ => .error .unusable

/-- What a command asks for, if it has its operands. -/
def Given.action (g : Given) : Name → Option Action
  | .run => g.operands.head?.map (fun file => .run file g.limit)
  | .ast => g.operands.head?.map .ast
  | .asm => g.operands.head?.map .asm
  | .explain => some (.explain g.operands.head?)
  | .version => some .version

/-- Reads the arguments up to the name of a command and those after it. -/
def read (o : Options) : List String → Except Stop Invocation
  | [] => .error .unusable
  | argument :: rest =>
    match Word.ofString argument with
    | .switches all => do
      let o ← all.foldlM (fun o s => o.take false s) o
      read o rest
    | .literal text =>
      match Name.ofString? text with
      | some name => do
        let g ← Given.read name {} rest
        match g.action name with
        | some action =>
          .ok ⟨action, ⟨o.json || g.options.json, o.noColor || g.options.noColor,
            o.verbose || g.options.verbose⟩⟩
        | none => .error .unusable
      | none =>
        if text = "help" ∧
          (rest = [] ∨ (rest.length = 1 ∧ rest.all (fun s => (Name.ofString? s).isSome)))
        then .error .help
        else .error .unusable
    | _ => .error .unusable

/-- Reads a command line; nothing if it is unusable. -/
def parse (arguments : List String) : Option Invocation :=
  match read {} arguments with
  | .ok invocation => some invocation
  | .error .version => some ⟨.version, {}⟩
  | .error .help => some ⟨.help, {}⟩
  | .error .unusable => none

end LineScript.Command
