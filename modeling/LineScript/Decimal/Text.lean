import LineScript.Decimal.Basic

/-!
# The text of a decimal number

A number is written with an optional `-`, at least one digit, and, after a point, at least one more
digit where there is a point at all. Reading admits any number of leading zeros and of trailing
zeros after the point; writing produces neither, so each value has one written form.

Reading works on the digits around the point: the zeros at the very end say nothing, and what is
left is one whole number, the coefficient, whose places after the point are the scale.
-/

set_option autoImplicit false

namespace LineScript.Decimal

/-! ## Digits -/

/-- The value of a digit. -/
def digitValue (c : Char) : Nat := c.toNat - '0'.toNat

/-- The value of a run of decimal digits, the most significant first. -/
def digitsValue (digits : List Char) : Nat := digits.foldl (fun n c => 10 * n + digitValue c) 0

/-- The digits of a natural number, without leading zeros. -/
def natDigits (n : Nat) : List Char := Nat.toDigits 10 n

/-! ## Reading -/

/-- The digits of a number on either side of its point. -/
structure Digits where
  whole : List Char
  fraction : List Char
deriving DecidableEq

/-- Splits unsigned text at its first point. A point has to be followed by something. -/
def Digits.split? (text : List Char) : Option Digits :=
  let whole := text.takeWhile (· != '.')
  match text.dropWhile (· != '.') with
  | [] => some ⟨whole, []⟩
  | [_] => none
  | _ :: fraction => some ⟨whole, fraction⟩

/-- Reads unsigned text as digits around an optional point. -/
def Digits.parse? (text : List Char) : Option Digits := do
  let d ← Digits.split? text
  if d.whole ≠ [] ∧ d.whole.all Char.isDigit ∧ d.fraction.all Char.isDigit then some d else none

/-- The same number without the zeros at the end of its fraction. -/
def Digits.trim (d : Digits) : Digits :=
  { d with fraction := (d.fraction.reverse.dropWhile (· == '0')).reverse }

/-- The number with the given sign and digits, if it needs neither too many places nor too large a
coefficient. -/
def Digits.toDecimal (negative : Bool) (d : Digits) : Except DecimalError Decimal :=
  let d := d.trim
  let magnitude : Int := digitsValue (d.whole ++ d.fraction)
  if d.fraction.length ≤ maxScale ∧ magnitude ≤ maxCoefficient then
    .ok (ofCoefficient (if negative then -magnitude else magnitude) d.fraction.length)
  else
    .error .outOfRange

/-- Reads a decimal number. -/
def parse (text : String) : Except DecimalError Decimal :=
  let (negative, unsigned) := match text.toList with
    | '-' :: rest => (true, rest)
    | all => (false, all)
  match Digits.parse? unsigned with
  | none => .error (.malformed text)
  | some d => d.toDecimal negative

/-! ## Writing -/

/-- The magnitude of a number, with a point before the last `scale` digits and at least one digit
before the point. -/
def magnitudeChars (a : Decimal) : List Char :=
  if a.scale = 0 then
    natDigits a.coefficient.natAbs
  else
    let digits := (natDigits a.coefficient.natAbs).leftpad (a.scale + 1) '0'
    let whole := digits.length - a.scale
    digits.take whole ++ '.' :: digits.drop whole

/-- The characters of a number. -/
def chars (a : Decimal) : List Char :=
  if a.coefficient < 0 then '-' :: a.magnitudeChars else a.magnitudeChars

/-- The text of a number. -/
def render (a : Decimal) : String := String.ofList a.chars

instance : ToString Decimal := ⟨render⟩

end LineScript.Decimal
