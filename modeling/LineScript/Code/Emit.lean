import LineScript.Code.Instruction

/-!
# Emitting code

Code is built from pieces. A piece knows the index at which it will stand and the registers and
variables in use so far; it yields a value, its instructions, and the registers and variables in use
afterwards. Pieces are put one behind the other by the monad of `Emit`, so the instructions of a
whole are the concatenation of those of its parts, and no instruction changes once it is written: a
jump over a piece is written when the length of the piece is known (`Emit.skippedBy`).
-/

set_option autoImplicit false

namespace LineScript

/-- Why a program cannot be turned into code. -/
inductive LoweringError where
  | undefinedVariable (name : String)
  | unknownFunction (name : String)
  | arity (name : String) (expected found : Nat)
  /-- An array is indexed by something that is known not to be a number. -/
  | keyKind (found : Kind)
  /-- A variable is given a value of another kind than it holds. -/
  | assignKind (name : String) (expected found : Kind)
  | invalidTarget
  /-- The length of something that is known not to be a container. -/
  | lenKind (found : Kind)
deriving DecidableEq

namespace LoweringError

/-- The error code. -/
def code : LoweringError → String
  | .undefinedVariable .. => "OK-C001"
  | .unknownFunction .. => "OK-C002"
  | .arity .. => "OK-C003"
  | .keyKind .. => "OK-C004"
  | .assignKind .. => "OK-C005"
  | .invalidTarget => "OK-C006"
  | .lenKind .. => "OK-C007"

/-- The wording of the error. -/
def message : LoweringError → String
  | .undefinedVariable name => s!"undefined variable: {name}"
  | .unknownFunction name => s!"unknown function: {name}"
  | .arity name expected found => s!"{name}() takes {expected} argument(s), got {found}"
  | .keyKind found => s!"array index must be a number, got {found}"
  | .assignKind name expected found => s!"cannot assign {found} to '{name}', which holds {expected}"
  | .invalidTarget => "only variables and keyed elements can be assigned to"
  | .lenKind found => s!"len() needs an array or map, got {found}"

end LoweringError

/-! ## Registers and variables in use -/

/-- A register and what is known about its contents. -/
structure Operand where
  register : Register
  kind : Option Kind
deriving DecidableEq

/-- The registers issued so far and the variables bound so far. A later binding of a name hides an
earlier one. A register is numbered by a word of 32 bits, so fewer than `2^32` of them are issued.
The count here has no bound; a program that comes near this one takes gigabytes to write down. -/
structure Scope where
  registers : Nat
  bindings : List (String × Operand)

namespace Scope

/-- Nothing is in use. -/
def empty : Scope := ⟨0, []⟩

/-- The register of a variable. -/
def find? (s : Scope) (name : String) : Option Operand := Entries.get? name s.bindings

/-- Binds a variable. -/
def bind (s : Scope) (name : String) (operand : Operand) : Scope :=
  { s with bindings := (name, operand) :: s.bindings }

end Scope

/-! ## Pieces of code -/

/-- What a piece of code comes to. -/
structure Emitted (α : Type) where
  value : α
  code : List Instruction
  scope : Scope

/-- A piece of code that stands at a given index, in a given scope. -/
def Emit (α : Type) : Type := (start : Nat) → Scope → Except LoweringError (Emitted α)

namespace Emit

variable {α β : Type}

instance : Monad Emit where
  pure a := fun _ scope => .ok ⟨a, [], scope⟩
  bind x f := fun start scope =>
    match x start scope with
    | .error e => .error e
    | .ok a =>
      match f a.value (start + a.code.length) a.scope with
      | .error e => .error e
      | .ok b => .ok ⟨b.value, a.code ++ b.code, b.scope⟩

/-- No code. -/
def fail (e : LoweringError) : Emit α := fun _ _ => .error e

/-- One instruction. -/
def instruction (i : Instruction) : Emit Unit := fun _ scope => .ok ⟨(), [i], scope⟩

/-- A register that was never issued before. None is given back, and fewer than `2^32` are issued in
all, so the numbers do not come round to one that is in use. -/
def fresh : Emit Register := fun _ scope =>
  .ok ⟨scope.registers, [], { scope with registers := scope.registers + 1 }⟩

/-- The register of a variable. -/
def find? (name : String) : Emit (Option Operand) :=
  fun _ scope => .ok ⟨scope.find? name, [], scope⟩

/-- Binds a variable. -/
def bindName (name : String) (operand : Operand) : Emit Unit := fun _ scope =>
  .ok ⟨(), [], scope.bind name operand⟩

/-- A piece behind a jump that can skip it: the jump is given the index right behind the piece. -/
def skippedBy (jump : (target : Nat) → Instruction) (body : Emit α) : Emit α := fun start scope =>
  match body (start + 1) scope with
  | .error e => .error e
  | .ok b => .ok ⟨b.value, jump (start + 1 + b.code.length) :: b.code, b.scope⟩

/-- Two pieces one behind the other: the second starts where the first ends, in the scope the first
leaves. -/
theorem bind_eq_ok {x : Emit α} {f : α → Emit β} {start : Nat} {scope : Scope} {result : Emitted β}
    (h : (x >>= f) start scope = .ok result) :
    ∃ a b, x start scope = .ok a ∧ f a.value (start + a.code.length) a.scope = .ok b ∧
      result = ⟨b.value, a.code ++ b.code, b.scope⟩ := by
  change (match x start scope with
    | .error e => .error e
    | .ok a =>
      match f a.value (start + a.code.length) a.scope with
      | .error e => .error e
      | .ok b => .ok ⟨b.value, a.code ++ b.code, b.scope⟩) = Except.ok result at h
  split at h
  · cases h
  · rename_i a ha
    split at h
    · cases h
    · rename_i b hb
      exact ⟨a, b, ha, hb, (Except.ok.inj h).symm⟩

end Emit

end LineScript
