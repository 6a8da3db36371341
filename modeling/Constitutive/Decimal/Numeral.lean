import Constitutive.Decimal.Shortest

/-!
# Reading decimal text

A numeral is an optional sign followed by digits with an optional point and an optional exponent, or
by one of the words `inf`, `infinity`, `nan` in any case.  There must be a digit before or after the
point, and one in the exponent if it is written.  Nothing else may stand in the text, blanks
included.  `read?` gives the nearest double, a tie to the even mantissa; a number too large for a
double gives infinity.
-/

namespace Constitutive.Decimal

/-- The value of a digit. -/
def digitValue (c : Char) : Nat :=
  c.toNat - '0'.toNat

/-- The number written by a run of digits. -/
def ofDigits (ds : List Char) : Nat :=
  ds.foldl (fun n c => 10 * n + digitValue c) 0

/-- The double nearest to a decimal.  Far out of range the exact quotient is not needed. -/
def Scaled.toFloat (d : Scaled) : Float :=
  if d.coefficient = 0 then 0.0
  else if 400 < d.place then infinity
  else if d.place < -400 then 0.0
  else
    let (up, down) := powerRatio 10 d.exponent
    nearestDouble (d.coefficient * up) down

/-- A sign, and what follows it. -/
def takeSign : List Char → Bool × List Char
  | '-' :: rest => (true, rest)
  | '+' :: rest => (false, rest)
  | text => (false, text)

/-- The exponent part of a numeral, zero if nothing is written. -/
def exponentPart? : List Char → Option Int
  | [] => some 0
  | c :: rest =>
    if c = 'e' ∨ c = 'E' then
      let (negative, ds) := takeSign rest
      if ds ≠ [] ∧ ds.all Char.isDigit then
        some (if negative then -(ofDigits ds : Int) else (ofDigits ds : Int))
      else none
    else none

/-- Digits with an optional point and an optional exponent. -/
def unsigned? (text : List Char) : Option Scaled :=
  let whole := text.takeWhile Char.isDigit
  let rest := text.dropWhile Char.isDigit
  let (decimals, tail) : List Char × List Char :=
    match rest with
    | '.' :: more => (more.takeWhile Char.isDigit, more.dropWhile Char.isDigit)
    | _ => ([], rest)
  if whole = [] ∧ decimals = [] then none
  else (exponentPart? tail).map fun e => ⟨ofDigits (whole ++ decimals), e - decimals.length⟩

/-- The double written by a text, or none if it is no numeral. -/
def read? (text : String) : Option Float :=
  let (negative, body) := takeSign text.toList
  let word := body.map Char.toLower
  let size : Option Float :=
    if word = "inf".toList ∨ word = "infinity".toList then some infinity
    else if word = "nan".toList then some (0.0 / 0.0)
    else (unsigned? body).map Scaled.toFloat
  size.map fun x => if negative then -x else x

end Constitutive.Decimal
