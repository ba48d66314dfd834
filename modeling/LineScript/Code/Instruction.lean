import LineScript.Expr.Operator
import LineScript.Value.Basic

/-!
# Instructions

Code is a list of instructions over numbered registers. An instruction reads registers and writes at
most one, prints a line, or moves on to another index of the list; jump targets are absolute
indexes.
-/

set_option autoImplicit false

namespace LineScript

/-- A register, by its number. -/
abbrev Register := Nat

/-- One instruction. -/
inductive Instruction where
  | load (value : Value) (result : Register)
  /-- Copies a value. -/
  | copy (source target : Register)
  /-- Arithmetic on numbers. -/
  | arith (op : Arith) (left right result : Register)
  /-- Joins data. -/
  | combine (left right result : Register)
  /-- Joins strings. -/
  | concat (left right result : Register)
  | relate (op : Relation) (left right result : Register)
  | negate (operand result : Register)
  | not (operand result : Register)
  /-- The number of elements of a container. -/
  | len (operand result : Register)
  /-- A new array with the given element kind. -/
  | makeArray (kind : Kind) (elements : List Register) (result : Register)
  | getItem (array index result : Register)
  /-- Replaces an item of the array in a register. -/
  | setItem (array index value : Register)
  /-- A new, empty map with the given element kind. -/
  | makeMap (kind : Kind) (result : Register)
  | getEntry (map key result : Register)
  /-- Adds or replaces an entry of the map in a register. -/
  | setEntry (map key value : Register)
  | print (arguments : List Register)
  | jump (target : Nat)
  | jumpIf (condition : Register) (target : Nat)
  | jumpUnless (condition : Register) (target : Nat)
deriving Inhabited

/-- A list of instructions with the number of registers it was given. -/
structure Routine where
  code : List Instruction
  registers : Nat
deriving Inhabited

/-! ## Listings -/

namespace Instruction

/-- The name of an instruction. -/
def opcode : Instruction → String
  | .load .. => "Load"
  | .copy .. => "Assign"
  | .arith op .. => op.name
  | .combine .. => "Combine"
  | .concat .. => "Concat"
  | .relate op .. => op.name
  | .negate .. => "Negate"
  | .not .. => "Not"
  | .len .. => "Len"
  | .makeArray .. => "ArrayAlloc"
  | .getItem .. => "ArrayGet"
  | .setItem .. => "ArraySet"
  | .makeMap .. => "MapAlloc"
  | .getEntry .. => "MapGet"
  | .setEntry .. => "MapSet"
  | .print .. => "Print"
  | .jump .. => "Jump"
  | .jumpIf .. => "JumpIf"
  | .jumpUnless .. => "JumpUnless"

/-- Registers with commas between them. -/
def registerList (registers : List Register) : String :=
  ", ".intercalate (registers.map (fun r => s!"r{r}"))

/-- The operands of an instruction, the destination first. -/
def operands : Instruction → String
  | .load value result => s!"r{result} = {value.display} ({value.kind})"
  | .copy source target => s!"r{target} = r{source}"
  | .arith _ left right result => s!"r{result} = r{left}, r{right}"
  | .combine left right result => s!"r{result} = r{left}, r{right}"
  | .concat left right result => s!"r{result} = r{left}, r{right}"
  | .relate _ left right result => s!"r{result} = r{left}, r{right}"
  | .negate operand result => s!"r{result} = r{operand}"
  | .not operand result => s!"r{result} = r{operand}"
  | .len operand result => s!"r{result} = r{operand}"
  | .makeArray kind elements result => s!"r{result} = {Kind.array kind} [{registerList elements}]"
  | .getItem array index result => s!"r{result} = r{array}[r{index}]"
  | .setItem array index value => s!"r{array}[r{index}] = r{value}"
  | .makeMap kind result => s!"r{result} = {Kind.map kind}"
  | .getEntry map key result => s!"r{result} = r{map}[r{key}]"
  | .setEntry map key value => s!"r{map}[r{key}] = r{value}"
  | .print arguments => registerList arguments
  | .jump target => s!"-> {target}"
  | .jumpIf condition target => s!"r{condition} -> {target}"
  | .jumpUnless condition target => s!"r{condition} -> {target}"

/-- One line of a listing: the name in a column of sixteen, then the operands. -/
def display (i : Instruction) : String :=
  i.opcode ++ String.ofList (List.replicate (16 - i.opcode.length) ' ') ++ i.operands

end Instruction

namespace Routine

/-- A number at the right end of a column of four. -/
def indexColumn (index : Nat) : String := String.ofList ((Nat.toDigits 10 index).leftpad 4 ' ')

/-- The instructions, each on a line with its index. -/
def listing (r : Routine) : String :=
  String.join (r.code.zipIdx.map (fun (i, index) => s!"{indexColumn index}  {i.display}\n"))

end Routine

end LineScript
