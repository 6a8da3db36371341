import Constitutive.Behaviour.Tensor
import Constitutive.Text.Lexeme

/-!
# Integration variables and the names made from them

An integration variable is an unknown of the implicit scheme, possibly an array of equal unknowns.
Generated code speaks of its increment `d<v>`, of its residual `f<v>` and of the block `df<a>_dd<b>`
of derivatives of the residual of `a` with respect to `b`.

Variable names may contain the separator `_dd` themselves, so a block name can be cut in several
places.  `splitBlockName?` takes the first cut whose parts are both known.
-/

namespace Constitutive

/-- An unknown of the implicit scheme. -/
structure Variable where
  name : String
  rank : Rank
  /-- Number of equal elements. -/
  arraySize : Nat
  deriving DecidableEq, Repr

namespace Variable

/-- Whether the variable has several elements. -/
def isArray (v : Variable) : Bool :=
  1 < v.arraySize

/-- Components of one element. -/
def components (v : Variable) (dim : Dimension) : Nat :=
  v.rank.components dim

/-- Components of all elements together. -/
def size (v : Variable) (dim : Dimension) : Nat :=
  v.components dim * v.arraySize

end Variable

/-- The name of the increment of a variable. -/
def incrementName (v : String) : String := "d" ++ v

/-- The name of the residual of a variable. -/
def residualName (v : String) : String := "f" ++ v

/-- The name of the derivative of the residual of `a` with respect to `b`. -/
def blockName (a b : String) : String := "df" ++ a ++ "_dd" ++ b

/-- The ways to cut a text at an occurrence of `_dd`, from left to right. -/
def separatorCuts : List Char → List (List Char × List Char)
  | [] => []
  | '_' :: 'd' :: 'd' :: rest =>
    ([], rest) :: (separatorCuts rest).map fun (a, b) => ('_' :: 'd' :: 'd' :: a, b)
  | c :: rest => (separatorCuts rest).map fun (a, b) => (c :: a, b)

/-- The two variables of a block name: the first cut whose parts are not empty and both known. -/
def splitBlockName? (known : String → Bool) (name : String) : Option (String × String) :=
  match name.toList with
  | 'd' :: 'f' :: rest =>
    ((separatorCuts rest).map fun (a, b) => (String.ofList a, String.ofList b)).find? fun (a, b) =>
      a ≠ "" && b ≠ "" && known a && known b
  | _ => none

/-- The text after a given first character. -/
def dropFirst? (c : Char) (name : String) : Option String :=
  match name.toList with
  | first :: rest => if first = c then some (String.ofList rest) else none
  | [] => none

/-- Whether a name can stand for a variable in generated code. -/
def isVariableName (name : String) : Bool :=
  Text.isIdentifier name.toList

end Constitutive
