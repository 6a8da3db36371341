import Constitutive.Decimal.Numeral

/-!
# Scalars

The numerical part is written over any type with the operations and comparisons it needs, and is run
on doubles.  Each algorithm asks for the operations it uses, so that it can be read over an exact
field as well.  What goes beyond the four operations is collected in `ScalarFunctions`.
-/

namespace Constitutive.Numeric

/-- Functions on scalars beyond the four operations. -/
class ScalarFunctions (α : Type) where
  abs : α → α
  sqrt : α → α
  /-- The larger of two scalars; one that is no number is disregarded. -/
  larger : α → α → α
  /-- The absolute value of the first scalar with the sign of the second. -/
  withSign : α → α → α
  ofNat : Nat → α
  /-- The distance from one to the next larger scalar. -/
  epsilon : α

open ScalarFunctions

/-- The larger of two doubles, disregarding one that is no number. -/
def largerDouble (x y : Float) : Float :=
  if x.isNaN then y else if y.isNaN then x else if x < y then y else x

instance : ScalarFunctions Float where
  abs := Float.abs
  sqrt := Float.sqrt
  larger := largerDouble
  withSign size sign := if Decimal.isNegative sign then -size.abs else size.abs
  ofNat n := Decimal.nearestDouble n 1
  epsilon := Decimal.nearestDouble 1 Decimal.fractionSize

/-- A condition on arguments that a caller has to see to. -/
inductive Violation where
  /-- A scale factor is zero. -/
  | zeroFactor
  /-- Vectors or matrices do not fit each other. -/
  | dimension
  deriving DecidableEq, Repr

end Constitutive.Numeric
