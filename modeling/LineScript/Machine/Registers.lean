import LineScript.Machine.Fault

/-!
# Registers and output

`Registers` is the register file of a run. A register is empty until it is written; reading it
before is a fault. Writing behind the end makes the file longer.

`Sink` is where printed bytes go. It takes all of them, or a fixed number and not one more.
-/

set_option autoImplicit false

namespace LineScript

/-- The register file of a run. -/
structure Registers where
  slots : List (Option Value)

namespace Registers

/-- A file of empty registers. -/
def empty (count : Nat) : Registers := ⟨List.replicate count none⟩

/-- The contents of a register. -/
def get? (rs : Registers) (r : Register) : Option Value := (rs.slots[r]?).join

/-- The contents of a register, which must not be empty. -/
def read (rs : Registers) (r : Register) : Except Fault Value :=
  match rs.get? r with
  | some v => .ok v
  | none => .error (.emptyRegister r)

/-- The contents of several registers, in order. -/
def readAll (rs : Registers) : List Register → Except Fault (List Value)
  | [] => .ok []
  | r :: rest => do
    let v ← rs.read r
    let vs ← rs.readAll rest
    pure (v :: vs)

/-- Writes a register. -/
def set (rs : Registers) (r : Register) (v : Value) : Registers :=
  if r < rs.slots.length then
    ⟨rs.slots.set r (some v)⟩
  else
    ⟨rs.slots ++ List.replicate (r - rs.slots.length) none ++ [some v]⟩

@[simp]
theorem get?_empty (count : Nat) (r : Register) : (empty count).get? r = none := by
  unfold get? empty
  rw [List.getElem?_replicate]
  split <;> rfl

/-- Writing a register changes that register and no other, wherever it lies. -/
theorem get?_set (rs : Registers) (r q : Nat) (v : Value) :
    (rs.set r v).get? q = if q = r then some v else rs.get? q := by
  unfold set get?
  by_cases inside : r < rs.slots.length
  · rw [if_pos inside]
    by_cases same : q = r
    · subst same
      simp [inside]
    · rw [if_neg same, List.getElem?_set_ne (fun e => same e.symm)]
  · -- Behind the old end everything but the new register is empty.
    rw [if_neg inside]
    have pad : (rs.slots ++ List.replicate (r - rs.slots.length) none).length = r := by
      rw [List.length_append, List.length_replicate]
      omega
    by_cases same : q = r
    · subst same
      rw [if_pos rfl, List.getElem?_append_right (Nat.le_of_eq pad), pad, Nat.sub_self]
      rfl
    · rw [if_neg same]
      by_cases before : q < r
      · rw [List.getElem?_append_left (pad.symm ▸ before), List.getElem?_append]
        split
        · rfl
        · rename_i behind
          rw [List.getElem?_replicate, List.getElem?_eq_none (Nat.le_of_not_lt behind)]
          split <;> rfl
      · have beyond : rs.slots.length ≤ q := by omega
        have after :
            (rs.slots ++ List.replicate (r - rs.slots.length) none ++ [some v]).length ≤ q := by
          rw [List.length_append, pad, List.length_singleton]
          omega
        rw [List.getElem?_eq_none beyond, List.getElem?_eq_none after]

/-- The registers below `limit` that are not empty, with their contents. -/
def filled (rs : Registers) (limit : Nat) : List (Register × Value) :=
  (List.range limit).filterMap (fun r => (rs.get? r).map (fun v => (r, v)))

end Registers

/-- Where printed bytes go. -/
structure Sink where
  /-- The bytes taken so far. -/
  taken : Array UInt8
  /-- How many bytes are taken in all, if there is a limit. -/
  limit : Option Nat

namespace Sink

/-- A sink that has taken nothing yet. -/
def new (limit : Option Nat) : Sink := ⟨#[], limit⟩

/-- How many of some bytes there is room for. -/
def room (s : Sink) (bytes : List UInt8) : Nat :=
  match s.limit with
  | none => bytes.length
  | some limit => limit - s.taken.size

/-- Takes as many bytes as there is room for. -/
def take (s : Sink) (bytes : List UInt8) : Sink :=
  { s with taken := s.taken ++ bytes.take (s.room bytes) }

theorem take_eq_append (s : Sink) (bytes : List UInt8) :
    (s.take bytes).taken.toList = s.taken.toList ++ bytes.take (s.room bytes) := by
  simp [take]

/-- Without a limit all bytes are taken. -/
theorem room_of_limit_none {s : Sink} (h : s.limit = none) (bytes : List UInt8) :
    s.room bytes = bytes.length := by
  simp [room, h]

end Sink

end LineScript
