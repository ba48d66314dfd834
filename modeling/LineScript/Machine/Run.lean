import LineScript.Machine.Effect

/-!
# Runs

A run carries out instructions from index zero until there is none at the index to go on from, until
one fails, or until a limit of instructions is reached. The limit is the recursion: `State.runFor`
takes at most that many steps. A run without a limit is given more steps than any real run can take.
-/

set_option autoImplicit false

namespace LineScript

/-- The state of a run. -/
structure State where
  registers : Registers
  /-- The index of the next instruction. -/
  next : Nat
  sink : Sink

namespace State

/-- Makes the change that an instruction asks for. Only printing can still fail. -/
def perform (s : State) : Effect → State × Option Fault
  | .write r v => ({ s with registers := s.registers.set r v }, none)
  | .jump target => ({ s with next := target }, none)
  | .proceed => (s, none)
  | .print line =>
    let bytes := Utf8.encode line
    let fault := if bytes.length ≤ s.sink.room bytes then none else some .outputClosed
    ({ s with sink := s.sink.take bytes }, fault)

/-- Carries out an instruction; the state already points behind it. -/
def execute (s : State) (i : Instruction) : State × Option Fault :=
  match i.effect s.registers with
  | .error fault => (s, some fault)
  | .ok effect => s.perform effect

/-- Points behind the next instruction. -/
def advance (s : State) : State := { s with next := s.next + 1 }

/-- How a run ends. -/
inductive Ending where
  | finished
  | failed (index : Nat) (opcode : String) (fault : Fault)
  /-- There are instructions left, but no more steps. -/
  | stopped
deriving DecidableEq

/-- Runs code for at most a given number of steps. -/
def runFor (code : List Instruction) : (steps : Nat) → State → State × Ending
  | 0, s =>
    match code[s.next]? with
    | none => (s, .finished)
    | some _ => (s, .stopped)
  | steps + 1, s =>
    match code[s.next]? with
    | none => (s, .finished)
    | some i =>
      match s.advance.execute i with
      | (t, none) => runFor code steps t
      | (t, some fault) => (t, .failed s.next i.opcode fault)

end State

/-- What a run leaves behind. -/
structure RunResult where
  result : Except RunError Registers
  /-- The printed bytes. -/
  output : List UInt8

namespace Routine

/-- The state before the first instruction. -/
def start (r : Routine) (sink : Sink) : State := ⟨.empty r.registers, 0, sink⟩

/-- Steps enough for any run: no count of steps reaches `2^64`, and code that only jumps forward
takes no more steps than it has instructions. -/
def unlimited (r : Routine) : Nat := r.code.length + 0x10000000000000000

/-- Runs a routine, with a limit on the instructions carried out if one is given. -/
def run (r : Routine) (limit : Option Nat) (sink : Sink) : RunResult :=
  let steps := limit.getD r.unlimited
  let (s, ending) := State.runFor r.code steps (r.start sink)
  let result := match ending with
    | .finished => .ok s.registers
    | .failed index opcode fault => .error (.instruction index opcode fault)
    | .stopped => .error (.stepLimit steps)
  ⟨result, s.sink.taken.toList⟩

end Routine

end LineScript
