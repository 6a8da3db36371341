import Constitutive.Decimal.Shortest

/-!
# Decimal text of doubles

Three ways of writing a double.

* `literal` is the form of generated code.  Numbers from `10 ^ -4` up to `10 ^ 16`, and zero, are
  written positionally with at least one decimal; others have an exponent.
* `plain` is the form of messages: always positional, and without decimals where there are none.
* `scientific` has a fixed number of decimals and always an exponent.

The first two have the fewest digits that read back.
-/

namespace Constitutive.Decimal

/-- A run of zeros. -/
def zeros (count : Nat) : String :=
  String.ofList (List.replicate count '0')

namespace Scaled

/-- Positional text; `point` asks for a decimal even when the number is whole. -/
def positional (d : Scaled) (point : Bool) : String :=
  let ds := digits d.coefficient
  if 0 ≤ d.exponent then
    String.ofList ds ++ zeros d.exponent.toNat ++ (if point then ".0" else "")
  else
    let decimals := (-d.exponent).toNat
    if decimals < ds.length then
      String.ofList (ds.take (ds.length - decimals)) ++ "." ++
        String.ofList (ds.drop (ds.length - decimals))
    else
      "0." ++ zeros (decimals - ds.length) ++ String.ofList ds

/-- Text with one digit before the point and an exponent. -/
def exponential (d : Scaled) : String :=
  let ds := digits d.coefficient
  let decimals := if ds.length ≤ 1 then "" else "." ++ String.ofList (ds.drop 1)
  String.ofList (ds.take 1) ++ decimals ++ "e" ++ toString d.place

end Scaled

/-- Writes a double with a sign, given the text of its finite absolute value. -/
def signed (x : Float) (finite : Binary → String) : String :=
  match Magnitude.ofFloat x with
  | .nan => "NaN"
  | .infinite => if isNegative x then "-inf" else "inf"
  | .finite value => (if isNegative x then "-" else "") ++ finite value

/-- A double as a literal of generated code. -/
def literal (x : Float) : String :=
  signed x fun value =>
    let d := value.shortest
    if value.mantissa = 0 then "0.0"
    else if -4 ≤ d.place ∧ d.place < 16 then d.positional true
    else d.exponential

/-- A double in a message. -/
def plain (x : Float) : String :=
  signed x fun value => if value.mantissa = 0 then "0" else value.shortest.positional false

/-- A double with an exponent and `places` decimals. -/
def scientific (places : Nat) (x : Float) : String :=
  signed x fun value =>
    if value.mantissa = 0 then
      (Scaled.mk 0 0).positional false ++ (if places = 0 then "" else "." ++ zeros places) ++ "e0"
    else (value.rounded places).exponential

end Constitutive.Decimal
