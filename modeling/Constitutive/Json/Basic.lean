import Constitutive.Decimal.Numeral

/-!
# JSON values

A JSON value keeps what a reader of it can tell apart: the order and repetition of object fields,
and how a number is spelled.  `2` and `2.0` are different numbers here, because only the first can
be read as an integer.

The reading of a number as a double takes up digits as long as they form a number below `2 ^ 64`.
Digits beyond that are dropped, those before the point with a shift of the exponent.  The number is
then scaled by one power of ten, or by several if it is very small.  A number too large for a double
cannot be read.
-/

namespace Constitutive

/-- A JSON number as it is spelled. -/
structure Json.Number where
  negative : Bool := false
  /-- The digits before the point. -/
  whole : Nat
  /-- The digits after the point, none if there is no point. -/
  decimals : List Nat := []
  exponent : Option Int := none
  deriving DecidableEq, Repr

/-- A JSON value. -/
inductive Json where
  | null
  | bool (value : Bool)
  | number (value : Json.Number)
  /-- A string; it has no text if an escape leaves half of a surrogate pair. -/
  | string (text : Option String)
  | array (items : List Json)
  /-- An object, with its fields in the order in which they are written. -/
  | object (fields : List (Option String × Json))
  deriving Repr

namespace Json

namespace Number

/-- An integer that is not negative. -/
def ofNat (n : Nat) : Number := { whole := n }

/-- The value of a number written as an integer without a sign. -/
def toNat? (n : Number) : Option Nat :=
  if n.negative = false ∧ n.decimals = [] ∧ n.exponent = none then some n.whole else none

/-- Takes up digits as long as the number they form stays below `2 ^ 64`.  The digits left over
follow. -/
def absorb (taken : Nat) : List Nat → Nat × List Nat
  | [] => (taken, [])
  | d :: ds => if 10 * taken + d < UInt64.size then absorb (10 * taken + d) ds else (taken, d :: ds)

/-- A power of ten as a double. -/
def powerOfTen (exponent : Nat) : Float :=
  Decimal.Scaled.toFloat ⟨1, exponent⟩

/-- Divides by `10 ^ exponent`, by no more than `10 ^ 308` at once. -/
def scaleDown (x : Float) (exponent : Nat) : Float :=
  if exponent ≤ 308 then x / powerOfTen exponent
  else if x == 0.0 then x
  else scaleDown (x / powerOfTen 308) (exponent - 308)
termination_by exponent

/-- `significand * 10 ^ exponent`, unless it is too large. -/
def scale? (significand : Nat) (exponent : Int) : Option Float :=
  let x := Decimal.nearestDouble significand 1
  if exponent < 0 then some (scaleDown x (-exponent).toNat)
  else if exponent ≤ 308 then
    let scaled := x * powerOfTen exponent.toNat
    if scaled.isInf then none else some scaled
  else if x == 0.0 then some x
  else none

/-- The double a number is read as, unless it is too large for one. -/
def toFloat? (n : Number) : Option Float :=
  let (leading, dropped) := absorb 0 ((Decimal.digits n.whole).map Decimal.digitValue)
  let (significand, left) := absorb leading n.decimals
  let shift : Int := dropped.length - (n.decimals.length - left.length : Nat)
  (scale? significand (shift + n.exponent.getD 0)).map fun x => if n.negative then -x else x

end Number

/-- A string with a text. -/
def text (s : String) : Json := .string (some s)

/-- A natural number. -/
def nat (n : Nat) : Json := .number (.ofNat n)

/-- An object whose field names have a text. -/
def record (fields : List (String × Json)) : Json :=
  .object (fields.map fun (name, value) => (some name, value))

/-- The text of a string. -/
def text? : Json → Option String
  | .string s => s
  | _ => none

def bool? : Json → Option Bool
  | .bool b => some b
  | _ => none

def array? : Json → Option (List Json)
  | .array items => some items
  | _ => none

/-- A natural number below `bound`, written without fraction and exponent. -/
def nat? (bound : Nat) : Json → Option Nat
  | .number n => n.toNat?.filter (· < bound)
  | _ => none

/-- A number as a double. -/
def float? : Json → Option Float
  | .number n => n.toFloat?
  | _ => none

end Json

end Constitutive
