import LineScript.Code.Instruction

/-!
# Faults

Why an instruction cannot be carried out, and why a run ends before its code does.
-/

set_option autoImplicit false

namespace LineScript

/-- What an instruction needs a value to be. -/
inductive Shape where
  | number
  | string
  | char
  | data
  | array
  | map
  /-- An array or a map. -/
  | container
  /-- A number, a string or a char. -/
  | ordered
deriving DecidableEq

/-- The name of a shape. -/
def Shape.name : Shape → String
  | .number => "number"
  | .string => "string"
  | .char => "char"
  | .data => "data"
  | .array => "array"
  | .map => "map"
  | .container => "array or map"
  | .ordered => "number, string or char"

/-- Why an instruction fails. -/
inductive Fault where
  | mismatch (expected : Shape) (found : Kind)
  | emptyRegister (register : Register)
  | indexOutOfRange (index : Decimal) (length : Nat)
  | fractionalIndex (index : Decimal)
  | missingKey (key : String)
  | numeric (error : DecimalError)
  | outputClosed
deriving DecidableEq

namespace Fault

/-- The error code. -/
def code : Fault → String
  | .mismatch .. => "OK-R001"
  | .emptyRegister .. => "OK-R002"
  | .indexOutOfRange .. => "OK-R003"
  | .fractionalIndex .. => "OK-R004"
  | .missingKey .. => "OK-R005"
  | .numeric .. => "OK-R006"
  | .outputClosed => "OK-R007"

/-- The wording of a fault. -/
def message : Fault → String
  | .mismatch expected found => s!"expected {expected.name}, got {found}"
  | .emptyRegister register => s!"register {register} read before it was written"
  | .indexOutOfRange index length => s!"index {index} out of range for array of length {length}"
  | .fractionalIndex index => s!"array index {index} is not a whole number"
  | .missingKey key => s!"no key \"{key}\" in map"
  | .numeric error => error.message
  | .outputClosed => "cannot write output: output closed"

end Fault

/-- Why a run ends early. -/
inductive RunError where
  /-- The instruction at an index failed. -/
  | instruction (index : Nat) (opcode : String) (fault : Fault)
  /-- The allowed number of instructions was carried out and more remain. -/
  | stepLimit (limit : Nat)
deriving DecidableEq

namespace RunError

/-- The error code. -/
def code : RunError → String
  | .instruction _ _ fault => fault.code
  | .stepLimit _ => "OK-R008"

/-- The wording of the error. -/
def message : RunError → String
  | .instruction index opcode fault => s!"instruction {index} ({opcode}) failed: {fault.message}"
  | .stepLimit limit => s!"step limit of {limit} instructions exceeded"

end RunError

end LineScript
