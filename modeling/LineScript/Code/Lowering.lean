import LineScript.Code.Emit
import LineScript.Expr.Basic

/-!
# From programs to code

Every expression that computes something gets a register of its own, in which its value ends up. A
variable owns one register too, and an assignment copies into it, so no two variables share a
container. With each register goes what is known about the kind of its contents; it selects between
arrays and maps, and between adding numbers, joining strings and joining data.

An assignment to `base[key]` updates the container in the register of `base`. Where `base` is a
variable that is all; where it is an element itself, that register holds a copy, and the copy is
stored back into the container it came from, up to the variable at the root.
-/

set_option autoImplicit false

namespace LineScript

namespace Lowering

/-! ## What is known about kinds -/

/-- The kind that all elements are known to share; `any` if there are none, if they differ or if one
is unknown. -/
def commonKind : List Operand → Kind
  | [] => .any
  | ⟨_, none⟩ :: _ => .any
  | ⟨_, some kind⟩ :: rest => if rest.all (fun o => o.kind = some kind) then kind else .any

/-- What is known about the value of a logical connective: either operand may be the one it
yields. -/
def eitherKind (left right : Operand) : Option Kind :=
  if left.kind = some .bool ∧ right.kind = some .bool then some .bool else none

/-- The left side of an assignment is a variable or an element. -/
def isTarget : Expr → Bool
  | .ident _ => true
  | .element .. => true
  | _ => false

/-! ## Checks -/

/-- Refuses an array index that is known not to be a number. -/
def checkIndex (index : Operand) : Emit Unit :=
  match index.kind with
  | none => pure ()
  | some .number => pure ()
  | some kind => Emit.fail (.keyKind kind)

/-- Refuses the length of something that is known not to be a container. -/
def checkContainer (operand : Operand) : Emit Unit :=
  match operand.kind with
  | none => pure ()
  | some (.array _) => pure ()
  | some (.map _) => pure ()
  | some kind => Emit.fail (.lenKind kind)

/-- The register of a variable that is given a value: a fresh one at its first assignment, and later
its own, if the kinds agree. -/
def target (name : String) (value : Operand) : Option Operand → Emit Register
  | none => Emit.fresh
  | some ⟨register, some held⟩ =>
    match value.kind with
    | none => pure register
    | some given =>
      if held.compatible given then pure register
      else Emit.fail (.assignKind name held given)
  | some ⟨register, none⟩ => pure register

/-! ## Single instructions -/

/-- One instruction into a fresh register. -/
def into (i : (result : Register) → Instruction) (kind : Option Kind) : Emit Operand := do
  let result ← Emit.fresh
  Emit.instruction (i result)
  pure ⟨result, kind⟩

/-- An arithmetic operation. Addition joins two operands that are known to be strings or data. -/
def arith (op : Arith) (left right : Operand) : Emit Operand :=
  match op, left.kind, right.kind with
  | .add, some .data, some .data => into (.combine left.register right.register) (some .data)
  | .add, some .string, some .string => into (.concat left.register right.register) (some .string)
  | _, _, _ => into (.arith op left.register right.register) (some .number)

/-- A negation. -/
def negation (op : UnaryOp) (operand : Operand) : Emit Operand :=
  match op with
  | .not => into (.not operand.register) (some .bool)
  | .negate => into (.negate operand.register) (some .number)

/-- An element of a container. -/
def get (container key : Operand) : Emit Operand :=
  match container.kind with
  | some (.array element) => do
    checkIndex key
    into (.getItem container.register key.register) element.known?
  | some (.map element) => into (.getEntry container.register key.register) element.known?
  | _ => into (.getEntry container.register key.register) none

/-- Puts a value into a container and says what is then known about it. -/
def put (container key value : Operand) : Emit Operand :=
  match container.kind with
  | some (.array element) => do
    checkIndex key
    Emit.instruction (.setItem container.register key.register value.register)
    pure ⟨container.register, some (.array (element.widen value.kind))⟩
  | some (.map element) => do
    Emit.instruction (.setEntry container.register key.register value.register)
    pure ⟨container.register, some (.map (element.widen value.kind))⟩
  | kind => do
    Emit.instruction (.setEntry container.register key.register value.register)
    pure ⟨container.register, kind⟩

/-- Copies a value into the register of a variable. -/
def assign (name : String) (value : Operand) : Emit Unit := do
  let bound ← Emit.find? name
  let register ← target name value bound
  Emit.instruction (.copy value.register register)
  Emit.bindName name ⟨register, value.kind⟩

/-- Entries into a map, one after the other. -/
def putEntries (map : Register) : List (Operand × Operand) → Emit Unit
  | [] => pure ()
  | (key, value) :: rest => do
    Emit.instruction (.setEntry map key.register value.register)
    putEntries map rest

/-- A logical connective behind its left operand: the result is a copy of this operand, over which
the right operand is copied unless the jump skips it. -/
def connect (jump : Register → Nat → Instruction) (left : Operand) (right : Emit Operand) :
    Emit Operand := do
  let result ← into (.copy left.register) none
  let right ← Emit.skippedBy (jump result.register) do
    let right ← right
    Emit.instruction (.copy right.register result.register)
    pure right
  pure ⟨result.register, eitherKind left right⟩

/-- The register of a variable that is read. -/
def readName (name : String) : Option Operand → Emit Operand
  | some bound => pure bound
  | none => Emit.fail (.undefinedVariable name)

/-! ## Expressions -/

mutual

/-- The code of an expression, and the register in which its value is found. -/
def expr : Expr → Emit Operand
  | .literal value => into (.load value) (some value.kind)
  | .ident name => do
    let bound ← Emit.find? name
    readName name bound
  | .group inner => expr inner
  | .array items => do
    let elements ← exprs items
    let kind := commonKind elements
    into (.makeArray kind (elements.map Operand.register)) (some (.array kind))
  | .map pairs => do
    let pairs ← entries pairs
    let kind := commonKind (pairs.map Prod.snd)
    let map ← into (.makeMap kind) (some (.map kind))
    putEntries map.register pairs
    pure map
  | .element base key => do
    let container ← expr base
    let key ← expr key
    get container key
  | .call name args =>
    if name = "print" then do
      let arguments ← exprs args
      Emit.instruction (.print (arguments.map Operand.register))
      -- Printing has no value: nothing ever writes this register.
      let result ← Emit.fresh
      pure ⟨result, none⟩
    else if name = "len" then
      match args with
      | [arg] => do
        let operand ← expr arg
        checkContainer operand
        into (.len operand.register) (some .number)
      | _ => Emit.fail (.arity name 1 args.length)
    else
      Emit.fail (.unknownFunction name)
  | .unary op operand => do
    let operand ← expr operand
    negation op operand
  | .binary left (.arith op) right => do
    let left ← expr left
    let right ← expr right
    arith op left right
  | .binary left (.relation op) right => do
    let left ← expr left
    let right ← expr right
    into (.relate op left.register right.register) (some .bool)
  | .binary left .and right => do
    let left ← expr left
    connect .jumpUnless left (expr right)
  | .binary left .or right => do
    let left ← expr left
    connect .jumpIf left (expr right)
  | .binary target .assign value =>
    if isTarget target then do
      let value ← expr value
      store target value
      pure value
    else
      Emit.fail .invalidTarget
  | .binary target (.update op) value =>
    if isTarget target then do
      let current ← expr target
      let operand ← expr value
      let value ← arith op current operand
      store target value
      pure value
    else
      Emit.fail .invalidTarget

/-- Expressions one after the other. -/
def exprs : List Expr → Emit (List Operand)
  | [] => pure []
  | e :: rest => do
    let operand ← expr e
    let operands ← exprs rest
    pure (operand :: operands)

/-- Keys and values one after the other. -/
def entries : List (Expr × Expr) → Emit (List (Operand × Operand))
  | [] => pure []
  | (key, value) :: rest => do
    let key ← expr key
    let value ← expr value
    let pairs ← entries rest
    pure ((key, value) :: pairs)

/-- Writes a value into a target. The container of an element that is no variable is a copy, which
is stored back in its turn. -/
def store : Expr → Operand → Emit Unit
  | .ident name, value => assign name value
  | .element base key, value => do
    let container ← expr base
    let key ← expr key
    let container ← put container key value
    match base with
    | .ident name => Emit.bindName name container
    | _ => store base container
  | _, _ => Emit.fail .invalidTarget

end

/-! ## Programs -/

/-- An error with the statement that it arises in. -/
structure Located where
  error : LoweringError
  span : Span
deriving DecidableEq

/-- The code of statements that start at a given index, in a given scope. -/
def statements (start : Nat) (scope : Scope) : Program → Except Located (Emitted Unit)
  | [] => .ok ⟨(), [], scope⟩
  | s :: rest =>
    match expr s.expr start scope with
    | .error e => .error ⟨e, s.span⟩
    | .ok first =>
      match statements (start + first.code.length) first.scope rest with
      | .error e => .error e
      | .ok others => .ok ⟨(), first.code ++ others.code, others.scope⟩

end Lowering

/-- The code of a program. The first error ends it. -/
def Program.lower (p : Program) : Except Lowering.Located Routine :=
  (Lowering.statements 0 .empty p).map (fun all => ⟨all.code, all.scope.registers⟩)

end LineScript
