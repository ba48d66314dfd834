/-!
# Exact decimal numbers

A `Decimal` is a whole coefficient with a power of ten below it: `12.3` is `123 · 10⁻¹`. The
coefficient of every number that an operation returns lies in the signed 128-bit range, and an
operation whose exact intermediate leaves that range fails instead of rounding.

Three facts carry everything else in this file.

* `Decimal.ofCoefficient` is the only way a result is built, and it leaves a *canonical* number: at
  most `maxScale` decimal places, the last of them not zero. So equal values are equal records.
* Addition, subtraction and remainder first bring both coefficients to the larger of the two scales
  (`Decimal.align`); from there on they are integer operations.
* Division has no exact answer in general. It widens the dividend by as many places as still fit,
  `divisionPlaces` beyond the divisor's own at most, and divides toward zero.
-/

set_option autoImplicit false

namespace LineScript

/-- The number `coefficient · 10^(-scale)`. -/
structure Decimal where
  coefficient : Int
  scale : Nat
deriving DecidableEq, Inhabited

/-- Why a number cannot be read or computed. -/
inductive DecimalError where
  /-- The text is not a decimal number. -/
  | malformed (text : String)
  /-- The number, or one that is needed on the way to it, leaves the range. -/
  | outOfRange
  /-- A quotient or remainder by zero. -/
  | divisionByZero
deriving DecidableEq

/-- The wording of a numeric error. -/
def DecimalError.message : DecimalError → String
  | .malformed text => s!"invalid number '{text}'"
  | .outOfRange => "number out of range"
  | .divisionByZero => "division by zero"

namespace Decimal

/-! ## Range -/

/-- The most decimal places a number carries; `10^38` is the largest power of ten in range. -/
def maxScale : Nat := 38

/-- Places kept beyond the divisor's own when a quotient does not end. -/
def divisionPlaces : Nat := 28

/-- The largest coefficient, `2^127 - 1`. -/
def maxCoefficient : Int := 0x7fffffffffffffffffffffffffffffff

/-- The smallest coefficient, `-2^127`. -/
def minCoefficient : Int := -0x80000000000000000000000000000000

/-- A coefficient in the signed 128-bit range. -/
def InRange (n : Int) : Prop := minCoefficient ≤ n ∧ n ≤ maxCoefficient

instance (n : Int) : Decidable (InRange n) := inferInstanceAs (Decidable (_ ∧ _))

/-- The number itself when it is in range. -/
def checked (n : Int) : Except DecimalError Int :=
  if InRange n then .ok n else .error .outOfRange

theorem checked_eq_ok_iff {n m : Int} : checked n = .ok m ↔ InRange n ∧ m = n := by
  unfold checked
  split
  · rename_i h
    simp [h, eq_comm]
  · rename_i h
    simp [h]

theorem checked_eq_error_iff {n : Int} {e : DecimalError} :
    checked n = .error e ↔ ¬ InRange n ∧ e = .outOfRange := by
  unfold checked
  split
  · rename_i h
    simp [h]
  · rename_i h
    simp [h, eq_comm]

/-! ## Powers of ten -/

/-- The power `10^n`. -/
def tenTo : Nat → Int
  | 0 => 1
  | n + 1 => 10 * tenTo n

theorem tenTo_pos (n : Nat) : 0 < tenTo n := by
  induction n with
  | zero => decide
  | succ n ih =>
    rw [tenTo]
    omega

/-! ## Canonical form -/

/-- Drops trailing zeros from the places after the point. Zero loses all of its places. -/
def strip (coefficient : Int) : Nat → Decimal
  | 0 => ⟨coefficient, 0⟩
  | scale + 1 =>
    if coefficient % 10 = 0 then strip (coefficient / 10) scale else ⟨coefficient, scale + 1⟩

/-- A coefficient cut toward zero to at most `maxScale` places. More than `maxScale` places too many
leave nothing of a coefficient in range, so no power beyond `10^maxScale` is ever formed. -/
def cut (coefficient : Int) (scale : Nat) : Int :=
  let excess := scale - maxScale
  if excess ≤ maxScale then coefficient.tdiv (tenTo excess) else 0

/-- The canonical number for `coefficient · 10^(-scale)`, cut toward zero to `maxScale` places. -/
def ofCoefficient (coefficient : Int) (scale : Nat) : Decimal :=
  strip (cut coefficient scale) (min scale maxScale)

/-- The number zero. -/
def zero : Decimal := ⟨0, 0⟩

/-- A natural number as a decimal. -/
def ofNat (n : Nat) : Decimal := ofCoefficient n 0

def isZero (a : Decimal) : Bool := a.coefficient == 0

/-- Whole numbers are those with no places after the point. -/
def isInteger (a : Decimal) : Bool := a.scale == 0

/-- The number as a position in a sequence: whole, not negative and below `2^64`. -/
def toIndex? (a : Decimal) : Option Nat :=
  if a.isInteger ∧ 0 ≤ a.coefficient ∧ a.coefficient < 0x10000000000000000 then
    some a.coefficient.toNat
  else none

/-! ## Arithmetic -/

/-- The coefficient that writes the number with `scale` places. -/
def rescale (a : Decimal) (scale : Nat) : Except DecimalError Int :=
  checked (a.coefficient * tenTo (scale - a.scale))

/-- Two numbers written with the same number of places. -/
structure Aligned where
  left : Int
  right : Int
  scale : Nat

/-- Both numbers with as many places as the longer of them. -/
def align (a b : Decimal) : Except DecimalError Aligned := do
  let scale := max a.scale b.scale
  let left ← a.rescale scale
  let right ← b.rescale scale
  pure ⟨left, right, scale⟩

def add (a b : Decimal) : Except DecimalError Decimal := do
  let p ← align a b
  let sum ← checked (p.left + p.right)
  pure (ofCoefficient sum p.scale)

def sub (a b : Decimal) : Except DecimalError Decimal := do
  let p ← align a b
  let difference ← checked (p.left - p.right)
  pure (ofCoefficient difference p.scale)

def mul (a b : Decimal) : Except DecimalError Decimal := do
  let product ← checked (a.coefficient * b.coefficient)
  pure (ofCoefficient product (a.scale + b.scale))

/-- A dividend with `extra` more places. -/
structure Widened where
  coefficient : Int
  extra : Nat

/-- The coefficient with the most extra places, at most `extra`, for which it stays in range. -/
def widen? (coefficient : Int) (extra : Nat) : Option Widened :=
  if extra ≤ maxScale ∧ InRange (coefficient * tenTo extra) then
    some ⟨coefficient * tenTo extra, extra⟩
  else
    match extra with
    | 0 => none
    | fewer + 1 => widen? coefficient fewer

/-- The quotient, cut toward zero. It ends exactly where the dividend, widened by `divisionPlaces`
places beyond the divisor's, still fits and the quotient has no more places than that. -/
def div (a b : Decimal) : Except DecimalError Decimal :=
  if b.isZero then
    .error .divisionByZero
  else
    match widen? a.coefficient (divisionPlaces + b.scale) with
    | none => .error .outOfRange
    | some w => do
      let quotient ← checked (w.coefficient.tdiv b.coefficient)
      if b.scale ≤ a.scale + w.extra then
        pure (ofCoefficient quotient (a.scale + w.extra - b.scale))
      else
        let whole ← checked (quotient * tenTo (b.scale - (a.scale + w.extra)))
        pure (ofCoefficient whole 0)

/-- The remainder, with the sign of the dividend. The quotient it belongs to has to be in range. -/
def rem (a b : Decimal) : Except DecimalError Decimal :=
  if b.isZero then
    .error .divisionByZero
  else do
    let p ← align a b
    let _ ← checked (p.left.tdiv p.right)
    pure (ofCoefficient (p.left.tmod p.right) p.scale)

def neg (a : Decimal) : Except DecimalError Decimal := do
  let coefficient ← checked (-a.coefficient)
  pure ⟨coefficient, a.scale⟩

/-! ## Order -/

/-- The part before the point. -/
def wholePart (a : Decimal) : Int := a.coefficient.tdiv (tenTo a.scale)

/-- The part after the point as `maxScale` digits, with the sign of the number. -/
def fraction (a : Decimal) : Int := a.coefficient.tmod (tenTo a.scale) * tenTo (maxScale - a.scale)

/-- The order of two numbers: by the part before the point, then by the part after it. -/
def compare (a b : Decimal) : Ordering :=
  (Ord.compare a.wholePart b.wholePart).then (Ord.compare a.fraction b.fraction)

end Decimal

end LineScript
