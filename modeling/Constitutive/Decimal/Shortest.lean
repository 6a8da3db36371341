import Constitutive.Decimal.Binary

/-!
# The fewest digits that read back

Every real in a small interval around a double rounds to that double; the ends belong to the
interval exactly when the mantissa is even.  `shortest` looks for a decimal in that interval with
one digit, then with two, and so on.  Of the decimals with a given number of digits only the two
neighbours of the double matter: if any of them lies in the interval, one of the two does.  Of two
hits the nearer one is taken, and on a tie the larger.  Seventeen digits always suffice.

`rounded` gives a fixed number of digits instead, a tie to the even digit.
-/

namespace Constitutive.Decimal

/-- The number `coefficient * 10 ^ exponent`. -/
structure Scaled where
  coefficient : Nat
  exponent : Int
  deriving DecidableEq, Repr

/-- The decimal digits of a natural number. -/
def digits (n : Nat) : List Char :=
  Nat.toDigits 10 n

/-- The greatest `e` with `10 ^ e ≤ numerator / denominator`, for positive arguments. -/
def decimalPlace (numerator denominator : Nat) : Int :=
  if denominator ≤ numerator then
    (digits (numerator / denominator)).length - 1
  else
    -((digits ((denominator + numerator - 1) / numerator - 1)).length : Int)

namespace Scaled

/-- The same number with as many trailing zeros of the coefficient moved to the exponent as `fuel`
allows. -/
def stripZeros : Nat → Scaled → Scaled
  | 0, d => d
  | fuel + 1, d =>
    if d.coefficient ≠ 0 ∧ d.coefficient % 10 = 0 then
      stripZeros fuel ⟨d.coefficient / 10, d.exponent + 1⟩
    else d

/-- The place of the leading digit: `10 ^ place ≤ value < 10 ^ (place + 1)`. -/
def place (d : Scaled) : Int :=
  (digits d.coefficient).length - 1 + d.exponent

end Scaled

namespace Binary

/-- The value as numerator and denominator. -/
def ratio (b : Binary) : Nat × Nat :=
  let (up, down) := powerRatio 2 b.exponent
  (b.mantissa * up, down)

/-- The place of the leading decimal digit. -/
def place (b : Binary) : Int :=
  decimalPlace b.ratio.1 b.ratio.2

/-- The multiple of `10 ^ exponent` next to the value that reads back as the value, if there is one.
Lengths are measured in quarters of the unit of the mantissa, so that the ends of the interval are
whole. -/
def neighbour? (b : Binary) (exponent : Int) : Option Scaled :=
  let (tenUp, tenDown) := powerRatio 10 exponent
  let (twoUp, twoDown) := powerRatio 2 (2 - b.exponent)
  let unit := tenUp * twoUp
  let scale := tenDown * twoDown
  let centre := 4 * b.mantissa * scale
  let low := (4 * b.mantissa - if b.narrow then 1 else 2) * scale
  let high := (4 * b.mantissa + 2) * scale
  let inside (n : Nat) : Bool :=
    if b.mantissa % 2 = 0 then low ≤ n * unit && n * unit ≤ high
      else low < n * unit && n * unit < high
  let below := centre / unit
  let takeAbove := (below + 1) * unit - centre ≤ centre - below * unit
  if inside (below + 1) && (takeAbove || !inside below) then some ⟨below + 1, exponent⟩
  else if inside below then some ⟨below, exponent⟩
  else none

/-- The decimal with the fewest digits that reads back as the value. -/
def shortest (b : Binary) : Scaled :=
  let place := b.place
  let found := (List.range 17).findSome? fun (more : Nat) => b.neighbour? (place - more)
  (found.getD ⟨b.mantissa, 0⟩).stripZeros 20

/-- The value with `places + 1` digits, a tie to the even digit. -/
def rounded (b : Binary) (places : Nat) : Scaled :=
  let exponent := b.place - places
  let (up, down) := powerRatio 10 exponent
  let coefficient := roundQuotient (b.ratio.1 * down) (b.ratio.2 * up)
  if coefficient = Nat.pow 10 (places + 1) then ⟨Nat.pow 10 places, exponent + 1⟩
    else ⟨coefficient, exponent⟩

end Binary

end Constitutive.Decimal
