/-!
# Doubles as exact numbers

A finite double is `mantissa * 2 ^ exponent` for natural `mantissa`.  Reading and writing decimal
numbers is done on this form in exact arithmetic: `Magnitude.ofFloat` takes a double apart, and
`nearestDouble` gives the double nearest to a quotient of natural numbers, where a tie goes to the
even mantissa.
-/

namespace Constitutive.Decimal

/-- A quotient rounded to the nearest natural number, a tie to the even one. -/
def roundQuotient (numerator denominator : Nat) : Nat :=
  let whole := numerator / denominator
  let rest := numerator % denominator
  if 2 * rest < denominator then whole
  else if denominator < 2 * rest then whole + 1
  else whole + whole % 2

/-- `base ^ exponent` as numerator and denominator. -/
def powerRatio (base : Nat) (exponent : Int) : Nat × Nat :=
  if 0 ≤ exponent then (Nat.pow base exponent.toNat, 1) else (1, Nat.pow base (-exponent).toNat)

/-- `2 ^ 52`: the bits of a double below this weight are its fraction. -/
def fractionSize : Nat := 4503599627370496

/-- The absolute value of a finite double, `mantissa * 2 ^ exponent`. -/
structure Binary where
  mantissa : Nat
  exponent : Int
  /-- The next smaller double is only half as far away as the next larger one. -/
  narrow : Bool
  deriving DecidableEq, Repr

/-- The absolute value of a double. -/
inductive Magnitude where
  | nan
  | infinite
  | finite (value : Binary)
  deriving DecidableEq, Repr

/-- The absolute value of a double. -/
def Magnitude.ofFloat (x : Float) : Magnitude :=
  let bits := x.toBits.toNat
  let exponent : Nat := bits / fractionSize % 2048
  let fraction : Nat := bits % fractionSize
  if exponent = 2047 then
    if fraction = 0 then .infinite else .nan
  else if exponent = 0 then
    .finite ⟨fraction, -1074, false⟩
  else
    .finite ⟨fractionSize + fraction, (exponent : Int) - 1075, fraction == 0 && 1 < exponent⟩

/-- The sign bit of a double. -/
def isNegative (x : Float) : Bool :=
  2048 * fractionSize ≤ x.toBits.toNat

/-- The natural number a double is, if it is one; both zeros are. -/
def natValue? (x : Float) : Option Nat :=
  match Magnitude.ofFloat x with
  | .finite b =>
    if isNegative x ∧ b.mantissa ≠ 0 then none
    else
      let (up, down) := powerRatio 2 b.exponent
      if b.mantissa * up % down = 0 then some (b.mantissa * up / down) else none
  | _ => none

/-- The greatest `e` with `2 ^ e ≤ numerator / denominator`, for positive arguments. -/
def binaryPlace (numerator denominator : Nat) : Int :=
  let guess := (numerator.log2 : Int) - (denominator.log2 : Int)
  let (up, down) := powerRatio 2 guess
  if denominator * up ≤ numerator * down then guess else guess - 1

/-- The double nearest to a quotient, a tie to the even mantissa.  Too large a quotient gives
infinity. -/
def nearestDouble (numerator denominator : Nat) : Float :=
  if numerator = 0 then 0.0
  else
    let exponent := max (binaryPlace numerator denominator - 52) (-1074)
    let (up, down) := powerRatio 2 exponent
    let mantissa := roundQuotient (numerator * down) (denominator * up)
    let bits := (exponent + 1075).toNat * fractionSize + mantissa - fractionSize
    Float.ofBits (min bits (2047 * fractionSize)).toUInt64

/-- The double beyond all others. -/
def infinity : Float :=
  Float.ofBits (2047 * fractionSize).toUInt64

end Constitutive.Decimal
