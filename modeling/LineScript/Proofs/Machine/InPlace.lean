import LineScript.Proofs.Machine.Instruction

/-!
# Instructions carried out in place

`State.execute` computes what an instruction does before it changes anything. Here the same
instructions are carried out bit by bit on a machine that keeps every change at once, also if the
instruction fails later: a container is first marked as mixed and then given its item, in the
register that it is in, and what is printed goes wherever the output of the machine goes (`Outlet`).
`Instruction.carryOut_eq` says that this comes to the same: every check stands in front of the first
change.
-/

set_option autoImplicit false

namespace LineScript

/-! ## Machines -/

/-- Somewhere to print to. Given bytes, it turns into what it is with them, or with those it took,
and says whether it took them all. In how many pieces it takes them is its own affair. -/
structure Outlet (σ : Type) where
  write : σ → List UInt8 → σ × Bool

/-- The sink of a run. -/
def Sink.outlet : Outlet Sink :=
  ⟨fun s bytes => (s.take bytes, decide (bytes.length ≤ s.room bytes))⟩

/-- A machine whose output goes to an outlet. -/
structure Machine (σ : Type) where
  registers : Registers
  /-- The index of the next instruction. -/
  next : Nat
  output : σ

/-- The state of a run as a machine. -/
def State.machine (s : State) : Machine Sink := ⟨s.registers, s.next, s.sink⟩

/-- A computation that changes a machine. What it has changed stays so if it fails. -/
abbrev InPlace (σ : Type) : Type → Type := ExceptT Fault (StateM (Machine σ))

namespace InPlace

variable {σ α : Type}

/-- A computation that changes nothing. -/
def check (x : Except Fault α) : InPlace σ α := ExceptT.mk (pure x)

def read (r : Register) : InPlace σ Value := do
  let m ← get
  check (m.registers.read r)

def readAll (registers : List Register) : InPlace σ (List Value) := do
  let m ← get
  check (m.registers.readAll registers)

def write (r : Register) (v : Value) : InPlace σ Unit :=
  modify fun m => { m with registers := m.registers.set r v }

/-- Changes what a register holds. -/
def change (r : Register) (f : Value → Value) : InPlace σ Unit :=
  modify fun m =>
    match m.registers.get? r with
    | some v => { m with registers := m.registers.set r (f v) }
    | none => m

def jump (target : Nat) : InPlace σ Unit :=
  modify fun m => { m with next := target }

def print (outlet : Outlet σ) (line : String) : InPlace σ Unit := do
  let m ← get
  let (output, all) := outlet.write m.output (Utf8.encode line)
  -- What was taken of the line stays, also if it was not all of it.
  set { m with output := output }
  if all then pure () else throw .outputClosed

end InPlace

namespace Value

/-- The container with its kind widened for an element. -/
def widened (v : Value) : Value → Value
  | .array element items => .array (element.widen v.kind) items
  | .map element entries => .map (element.widen v.kind) entries
  | container => container

/-- The array with another item at a position. -/
def placed (position : Nat) (v : Value) : Value → Value
  | .array element items => .array element (items.set position v)
  | container => container

/-- The map with a value under a key. -/
def inserted (key : String) (v : Value) : Value → Value
  | .map element entries => .map element (Entries.insert key v entries)
  | container => container

end Value

namespace Instruction

open InPlace

variable {σ : Type}

/-- Carries out an instruction in place. -/
def carryOut (outlet : Outlet σ) : Instruction → InPlace σ Unit
  | .load value result => write result value
  | .copy source target => do
    let v ← read source
    write target v
  | .arith op left right result => do
    let a ← check (← read left).asNumber
    let b ← check (← read right).asNumber
    let v ← check (Fault.ofNumeric (op.apply a b))
    write result v
  | .combine left right result => do
    let a ← check (← read left).asData
    let b ← check (← read right).asData
    write result (.data (a ++ b))
  | .concat left right result => do
    let a ← check (← read left).asString
    let b ← check (← read right).asString
    write result (.string (a ++ b))
  | .relate op left right result => do
    let a ← read left
    let b ← read right
    let holds ← check (op.apply a b)
    write result (.bool holds)
  | .negate operand result => do
    let n ← check (← read operand).asNumber
    let v ← check (Fault.ofNumeric n.neg)
    write result v
  | .not operand result => do
    let v ← read operand
    write result (.bool (!v.isTrue))
  | .len operand result => do
    let size ← check (← read operand).size
    write result (.number (.ofNat size))
  | .makeArray kind elements result => do
    let items ← readAll elements
    write result (.array kind items)
  | .getItem array index result => do
    let i ← check (← read index).asNumber
    let a ← read array
    let v ← check (a.getItem i)
    write result v
  | .setItem array index value => do
    let i ← check (← read index).asNumber
    let v ← read value
    match ← read array with
    | .array _ items => do
      -- Behind this check the array is changed, first its kind and then the item.
      let position ← check (Value.position i items.length)
      change array v.widened
      change array (Value.placed position v)
    | other => throw (.mismatch .array other.kind)
  | .makeMap kind result => write result (.emptyMap kind)
  | .getEntry map key result => do
    let k ← read key
    let m ← read map
    let v ← check (m.getEntry k.key)
    write result v
  | .setEntry map key value => do
    let k ← read key
    let v ← read value
    match ← read map with
    | .map _ _ => do
      change map v.widened
      change map (Value.inserted k.key v)
    | other => throw (.mismatch .map other.kind)
  | .print arguments => do
    let values ← readAll arguments
    InPlace.print outlet (printedLine values)
  | .jump target => InPlace.jump target
  | .jumpIf condition target => do
    let v ← read condition
    if v.isTrue then InPlace.jump target
  | .jumpUnless condition target => do
    let v ← read condition
    if !v.isTrue then InPlace.jump target

end Instruction

/-! ## What it comes to -/

namespace InPlace

variable {σ α : Type}

/-- What a computation comes to, and the machine that it leaves. -/
def on (c : InPlace σ α) (m : Machine σ) : Except Fault α × Machine σ :=
  Id.run (StateT.run (ExceptT.run c) m)

end InPlace

namespace Machine

open InPlace

variable {σ α : Type} {outlet : Outlet σ} {m : Machine σ} {r : Register}

/-- Makes the change that an instruction asks for. -/
def perform (outlet : Outlet σ) (m : Machine σ) : Effect → Except Fault Unit × Machine σ
  | .write r v => (.ok (), { m with registers := m.registers.set r v })
  | .jump target => (.ok (), { m with next := target })
  | .proceed => (.ok (), m)
  | .print line =>
    let (output, all) := outlet.write m.output (Utf8.encode line)
    (if all then .ok () else .error .outputClosed, { m with output := output })

/-- Makes the change, if it could be computed. -/
def follow (outlet : Outlet σ) (m : Machine σ) : Except Fault Effect → Except Fault Unit × Machine σ
  | .error fault => (.error fault, m)
  | .ok effect => m.perform outlet effect

/-- A check in front is one in the computation of the effect. -/
theorem follow_check {x : Except Fault α} {f : α → InPlace σ Unit} {g : α → Except Fault Effect}
    (h : ∀ a, x = .ok a → (f a).on m = m.follow outlet (g a)) :
    (check x >>= f).on m = m.follow outlet (x >>= g) := by
  cases x with
  | error fault => rfl
  | ok a => exact h a rfl

theorem follow_read {f : Value → InPlace σ Unit} {g : Value → Except Fault Effect}
    (h : ∀ v, m.registers.get? r = some v → (f v).on m = m.follow outlet (g v)) :
    (read r >>= f).on m = m.follow outlet (m.registers.read r >>= g) :=
  follow_check fun v hv => h v (Registers.read_eq_ok_iff.1 hv)

theorem follow_readAll {registers : List Register} {f : List Value → InPlace σ Unit}
    {g : List Value → Except Fault Effect}
    (h : ∀ values, (f values).on m = m.follow outlet (g values)) :
    (readAll registers >>= f).on m = m.follow outlet (m.registers.readAll registers >>= g) :=
  follow_check fun values _ => h values

end Machine

theorem Registers.lt_of_get? {rs : Registers} {r : Register} {v : Value} (h : rs.get? r = some v) :
    r < rs.slots.length := by
  rcases Nat.lt_or_ge r rs.slots.length with hlt | hle
  · exact hlt
  · rw [get?, List.getElem?_eq_none hle] at h
    cases h

/-- Of two changes of a register the second one stays. -/
theorem Registers.set_set {rs : Registers} {r : Register} (h : r < rs.slots.length) (v w : Value) :
    (rs.set r v).set r w = rs.set r w := by
  have hset : ∀ x, rs.set r x = ⟨rs.slots.set r (some x)⟩ := fun x => if_pos h
  rw [hset, hset, set, if_pos (by rwa [List.length_set]), List.set_set]

namespace InPlace

variable {σ : Type} {m : Machine σ} {r : Register} {v : Value}

theorem change_on (h : m.registers.get? r = some v) (f : Value → Value) :
    (change r f).on m = (.ok (), { m with registers := m.registers.set r (f v) }) := by
  change (Except.ok (), match m.registers.get? r with
    | some v => { m with registers := m.registers.set r (f v) }
    | none => m) = _
  rw [h]

theorem print_on (outlet : Outlet σ) (line : String) :
    (InPlace.print outlet line).on m = m.perform outlet (.print line) := by
  change (match outlet.write m.output (Utf8.encode line) with
    | (output, all) => (if all then pure () else throw Fault.outputClosed : InPlace σ Unit).on
        { m with output := output }) = _
  rw [Machine.perform]
  rcases outlet.write m.output (Utf8.encode line) with ⟨output, all⟩
  cases all <;> rfl

/-- A register that is changed twice holds what both changes make of it. -/
theorem change_change (h : m.registers.get? r = some v) (f g : Value → Value) :
    (do change r f; change r g : InPlace σ Unit).on m =
      (.ok (), { m with registers := m.registers.set r (g (f v)) }) := by
  have hfirst := change_on h f
  have hheld : (m.registers.set r (f v)).get? r = some (f v) := by
    rw [Registers.get?_set, if_pos rfl]
  have hsecond := change_on (m := { m with registers := m.registers.set r (f v) }) hheld g
  change (match (change r f).on m with
    | (.ok _, n) => (change r g).on n
    | (.error fault, n) => (.error fault, n)) = _
  rw [hfirst]
  dsimp only
  rw [hsecond, Registers.set_set (Registers.lt_of_get? h)]

end InPlace

namespace Instruction

open InPlace Machine

variable {σ : Type}

/-- **What is done in place is what was computed before.** -/
theorem carryOut_eq (outlet : Outlet σ) (i : Instruction) (m : Machine σ) :
    (i.carryOut outlet).on m = m.follow outlet (i.effect m.registers) := by
  cases i with
  | load v d => rfl
  | copy l d => exact follow_read fun v _ => rfl
  | arith op l r d =>
    exact follow_read
      fun a _ => follow_check fun x _ => follow_read fun b _ => follow_check fun y _ =>
      follow_check fun v _ => rfl
  | combine l r d =>
    exact follow_read
      fun a _ => follow_check fun x _ => follow_read fun b _ => follow_check fun y _ => rfl
  | concat l r d =>
    exact follow_read
      fun a _ => follow_check fun x _ => follow_read fun b _ => follow_check fun y _ => rfl
  | relate op l r d =>
    exact follow_read fun a _ => follow_read fun b _ => follow_check fun holds _ => rfl
  | negate l d => exact follow_read fun a _ => follow_check fun n _ => follow_check fun v _ => rfl
  | not l d => exact follow_read fun v _ => rfl
  | len l d => exact follow_read fun v _ => follow_check fun size _ => rfl
  | makeArray kind elements d => exact follow_readAll fun items => rfl
  | getItem l r d =>
    exact follow_read
      fun k _ => follow_check fun i _ => follow_read fun a _ => follow_check fun v _ => rfl
  | setItem l r value =>
    refine follow_read
      fun k _ => follow_check fun i _ => follow_read fun v _ => follow_read fun a ha => ?_
    cases a with
    | array element items =>
      -- The position is checked before the kind is widened; behind it nothing fails.
      rw [Value.setItem, bind_assoc]
      refine follow_check fun position _ => ?_
      exact change_change ha _ _
    | _ => rfl
  | makeMap kind d => rfl
  | getEntry l r d =>
    exact follow_read fun k _ => follow_read fun m _ => follow_check fun v _ => rfl
  | setEntry l r value =>
    refine follow_read fun k _ => follow_read fun v _ => follow_read fun a ha => ?_
    cases a with
    | map element entries => exact change_change ha _ _
    | _ => rfl
  | print arguments => exact follow_readAll fun values => print_on outlet (printedLine values)
  | jump target => rfl
  | jumpIf l target =>
    refine follow_read fun v _ => ?_
    cases v.isTrue <;> rfl
  | jumpUnless l target =>
    refine follow_read fun v _ => ?_
    cases v.isTrue <;> rfl

end Instruction

end LineScript
