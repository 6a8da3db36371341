import Constitutive.Decimal.Text

/-!
# Values of parameters

A parameter or factor is given as a truth value, a number or a text.  Whoever uses it asks for one
of these kinds, or for a number that is a natural number of at most 16 bits.
-/

namespace Constitutive

/-- A value given in a description. -/
inductive Setting where
  | flag (value : Bool)
  | number (value : Float)
  | text (value : String)

namespace Setting

/-- The kind of value, as messages call it. -/
def kind : Setting → String
  | flag _ => "boolean"
  | number _ => "number"
  | text _ => "string"

/-- The value in a message. -/
def describe : Setting → String
  | flag b => if b then "true" else "false"
  | number x => Decimal.plain x
  | text s => "\"" ++ s ++ "\""

def flag? : Setting → Option Bool
  | flag b => some b
  | _ => none

def number? : Setting → Option Float
  | number x => some x
  | _ => none

/-- A number that is a natural number of at most 16 bits. -/
def word? : Setting → Option Nat
  | number x => (Decimal.natValue? x).filter (· < UInt16.size)
  | _ => none

def text? : Setting → Option String
  | text s => some s
  | _ => none

end Setting

end Constitutive
