import LineScript.Machine.Registers

/-!
# What instructions do

An instruction is carried out in two steps. `Instruction.effect` reads registers and computes what
is to happen; it changes nothing, so a fault at this stage leaves no trace. `State.perform` then
makes the one change: a register written, a line printed, or another index to go on from.
-/

set_option autoImplicit false

namespace LineScript

/-! ## Operands -/

namespace Value

def asNumber : Value → Except Fault Decimal
  | .number n => .ok n
  | v => .error (.mismatch .number v.kind)

def asString : Value → Except Fault String
  | .string s => .ok s
  | v => .error (.mismatch .string v.kind)

def asData : Value → Except Fault (List UInt8)
  | .data bytes => .ok bytes
  | v => .error (.mismatch .data v.kind)

/-- The number of items or entries. -/
def size : Value → Except Fault Nat
  | .array _ items => .ok items.length
  | .map _ entries => .ok entries.length
  | v => .error (.mismatch .container v.kind)

/-! ## Containers -/

/-- The position in a list of `length` items that a number stands for. -/
def position (index : Decimal) (length : Nat) : Except Fault Nat :=
  if index.isInteger then
    match index.toIndex? with
    | some i => if i < length then .ok i else .error (.indexOutOfRange index length)
    | none => .error (.indexOutOfRange index length)
  else
    .error (.fractionalIndex index)

/-- The item of an array at an index. -/
def getItem (array : Value) (index : Decimal) : Except Fault Value :=
  match array with
  | .array _ items => do
    let i ← position index items.length
    match items[i]? with
    | some v => .ok v
    | none => .error (.indexOutOfRange index items.length)
  | v => .error (.mismatch .array v.kind)

/-- The array with another item at an index. -/
def setItem (array : Value) (index : Decimal) (value : Value) : Except Fault Value :=
  match array with
  | .array element items => do
    let i ← position index items.length
    pure (.array (element.widen value.kind) (items.set i value))
  | v => .error (.mismatch .array v.kind)

/-- The value of a map under a key. -/
def getEntry (map : Value) (key : String) : Except Fault Value :=
  match map with
  | .map _ entries =>
    match Entries.get? key entries with
    | some v => .ok v
    | none => .error (.missingKey key)
  | v => .error (.mismatch .map v.kind)

/-- The map with a value under a key. -/
def setEntry (map : Value) (key : String) (value : Value) : Except Fault Value :=
  match map with
  | .map element entries => .ok (.map (element.widen value.kind) (Entries.insert key value entries))
  | v => .error (.mismatch .map v.kind)

/-! ## Order -/

/-- The order of two numbers, two strings or two chars. Strings and chars are ordered by code
points. -/
def order : Value → Value → Except Fault Ordering
  | .number a, .number b => .ok (a.compare b)
  | .string a, .string b => .ok (compareOfLessAndEq a b)
  | .char a, .char b => .ok (compareOfLessAndEq a b)
  | .number _, v => .error (.mismatch .number v.kind)
  | .string _, v => .error (.mismatch .string v.kind)
  | .char _, v => .error (.mismatch .char v.kind)
  | v, _ => .error (.mismatch .ordered v.kind)

end Value

/-! ## Operators -/

/-- The operation on numbers. -/
def Arith.apply (op : Arith) (a b : Decimal) : Except DecimalError Decimal :=
  match op with
  | .add => a.add b
  | .subtract => a.sub b
  | .multiply => a.mul b
  | .divide => a.div b
  | .remainder => a.rem b

/-- Whether a relation holds. Any two values can be tested for equality. -/
def Relation.apply (op : Relation) (a b : Value) : Except Fault Bool :=
  match op with
  | .equal => .ok (a.same b)
  | .notEqual => .ok (!a.same b)
  | .greater => (a.order b).map (· == .gt)
  | .greaterEqual => (a.order b).map (· != .lt)
  | .less => (a.order b).map (· == .lt)
  | .lessEqual => (a.order b).map (· != .gt)

/-- A numeric result or the fault that it is none. -/
def Fault.ofNumeric (result : Except DecimalError Decimal) : Except Fault Value :=
  match result with
  | .ok n => .ok (.number n)
  | .error e => .error (.numeric e)

/-! ## Instructions -/

/-- The one thing that an instruction changes. -/
inductive Effect where
  | write (register : Register) (value : Value)
  | print (line : String)
  | jump (target : Nat)
  /-- Nothing changes. -/
  | proceed

/-- The line that prints values: their texts with blanks between them. -/
def printedLine (values : List Value) : String := " ".intercalate (values.map Value.display) ++ "\n"

/-- What an instruction does to given registers. Operands are read in a fixed order, so that of
several faults always the same one is reported. -/
def Instruction.effect (rs : Registers) : Instruction → Except Fault Effect
  | .load value result => .ok (.write result value)
  | .copy source target => do
    let v ← rs.read source
    pure (.write target v)
  | .arith op left right result => do
    let a ← (← rs.read left).asNumber
    let b ← (← rs.read right).asNumber
    let v ← Fault.ofNumeric (op.apply a b)
    pure (.write result v)
  | .combine left right result => do
    let a ← (← rs.read left).asData
    let b ← (← rs.read right).asData
    pure (.write result (.data (a ++ b)))
  | .concat left right result => do
    let a ← (← rs.read left).asString
    let b ← (← rs.read right).asString
    pure (.write result (.string (a ++ b)))
  | .relate op left right result => do
    let a ← rs.read left
    let b ← rs.read right
    let holds ← op.apply a b
    pure (.write result (.bool holds))
  | .negate operand result => do
    let n ← (← rs.read operand).asNumber
    let v ← Fault.ofNumeric n.neg
    pure (.write result v)
  | .not operand result => do
    let v ← rs.read operand
    pure (.write result (.bool (!v.isTrue)))
  | .len operand result => do
    let size ← (← rs.read operand).size
    pure (.write result (.number (.ofNat size)))
  | .makeArray kind elements result => do
    let items ← rs.readAll elements
    pure (.write result (.array kind items))
  | .getItem array index result => do
    let i ← (← rs.read index).asNumber
    let a ← rs.read array
    let v ← a.getItem i
    pure (.write result v)
  | .setItem array index value => do
    let i ← (← rs.read index).asNumber
    let v ← rs.read value
    let a ← rs.read array
    let a ← a.setItem i v
    pure (.write array a)
  | .makeMap kind result => .ok (.write result (.emptyMap kind))
  | .getEntry map key result => do
    let k ← rs.read key
    let m ← rs.read map
    let v ← m.getEntry k.key
    pure (.write result v)
  | .setEntry map key value => do
    let k ← rs.read key
    let v ← rs.read value
    let m ← rs.read map
    let m ← m.setEntry k.key v
    pure (.write map m)
  | .print arguments => do
    let values ← rs.readAll arguments
    pure (.print (printedLine values))
  | .jump target => .ok (.jump target)
  | .jumpIf condition target => do
    let v ← rs.read condition
    pure (if v.isTrue then .jump target else .proceed)
  | .jumpUnless condition target => do
    let v ← rs.read condition
    pure (if v.isTrue then .proceed else .jump target)

end LineScript
